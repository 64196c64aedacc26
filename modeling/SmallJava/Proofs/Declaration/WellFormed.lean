import SmallJava.Proofs.Typing.Growth

namespace SmallJava

namespace SymbolKind

def IsFieldOf (cls : SymbolId) : SymbolKind → Prop
  | field owner _ => owner = cls
  | _ => False

def IsMethodOf (cls : SymbolId) : SymbolKind → Prop
  | method info => info.owner = cls
  | _ => False

end SymbolKind

/-- What a class has once it has a new member. -/
theorem ClassInfo.get?_withMember {info : ClassInfo} {name key : String} {kind : SymbolKind}
    {x id : SymbolId} (hget : (info.withMember name kind id).members.get? key = some x ∨
      (info.withMember name kind id).visible.get? key = some x) :
    x = id ∨ (info.members.get? key = some x ∨ info.visible.get? key = some x) := by
  have hinsert : ∀ {dict : Dict String SymbolId}, (dict.insert name id).get? key = some x →
      x = id ∨ dict.get? key = some x := by
    intro dict hget
    rw [Dict.get?_insert] at hget
    split at hget
    next => exact .inl (Option.some.inj hget).symm
    next => exact .inr hget
  unfold ClassInfo.withMember at hget
  obtain hget | hget := hget
  · exact (hinsert hget).imp_right .inl
  · dsimp only at hget
    split at hget
    next => exact .inr (.inr hget)
    next => exact (hinsert hget).imp_right .inr

namespace SymbolTable

variable {table before after : SymbolTable} {x cls : SymbolId} {name : String}
  {kind found : SymbolKind} {ty : Ty} {span : Span}

theorem kind?_nextId : table.kind? table.nextId = none := by
  have hnone : table.get? table.nextId = none := get?_of_ge (Nat.le_refl _)
  simp [kind?, hnone]

theorem ne_nextId (hkind : table.kind? x = some kind) : x ≠ table.nextId := by
  rintro rfl
  rw [kind?_nextId] at hkind
  cases hkind

theorem kind?_add : (table.add name kind ty span).kind? x =
    if x = table.nextId then some kind else table.kind? x := by
  unfold SymbolTable.kind?
  rw [get?_add]
  split <;> rfl

theorem typeOf_add : (table.add name kind ty span).typeOf x =
    if x = table.nextId then ty else table.typeOf x := by
  unfold typeOf
  rw [get?_add]
  split <;> rfl

/-- What is found in a table with a new symbol. -/
theorem add_cases (hfound : (table.add name kind ty span).kind? x = some found) :
    x = table.nextId ∧ found = kind ∨ table.kind? x = some found := by
  rw [kind?_add] at hfound
  split at hfound
  next hnew => exact .inl ⟨hnew, (Option.some.inj hfound).symm⟩
  next => exact .inr hfound

theorem typeOf_insertMember : (table.insertMember cls name kind ty span).typeOf x =
    if x = table.nextId then ty else table.typeOf x := by
  unfold typeOf insertMember
  rw [map_get?_modify fun symbol => symbol.withMember_ty _ _ _]
  exact typeOf_add

theorem typeOf_setParams {m : SymbolId} {params : List SymbolId} :
    (table.setParams m params).typeOf x = table.typeOf x := by
  unfold typeOf setParams
  rw [map_get?_modify fun symbol => symbol.withParams_ty _]

theorem classes_addClass : (table.addClass name span).classes = table.classes ++ [table.nextId] := by
  simp [addClass, add, SymbolKind.isClass, SymbolKind.class?]

section Members

variable {info : ClassInfo} (hcls : table.kind? cls = some (.cls info))

include hcls

/-- A member that is entered changes its class and nothing else that was there. -/
theorem kind?_insertMember : (table.insertMember cls name kind ty span).kind? x =
    if x = table.nextId then some kind
    else if x = cls then some (.cls (info.withMember name kind table.nextId))
    else table.kind? x := by
  have hne := ne_nextId hcls
  obtain ⟨symbol, hget, hsymbol⟩ := Option.map_eq_some_iff.1 hcls
  unfold SymbolTable.kind? insertMember
  rw [get?_modify, get?_add]
  by_cases hx : x = cls
  · subst hx
    simp [hne, hget, Symbol.withMember, hsymbol]
  · rw [if_neg hx, if_neg hx]
    split <;> rfl

/-- What is found in a table with a new member: the member, its class, or what was there. -/
theorem insertMember_cases
    (hfound : (table.insertMember cls name kind ty span).kind? x = some found) :
    x = table.nextId ∧ found = kind ∨
      x = cls ∧ found = .cls (info.withMember name kind table.nextId) ∨
      x ≠ cls ∧ table.kind? x = some found := by
  rw [kind?_insertMember hcls] at hfound
  split at hfound
  next hnew => exact .inl ⟨hnew, (Option.some.inj hfound).symm⟩
  next =>
    split at hfound
    next hsame => exact .inr (.inl ⟨hsame, (Option.some.inj hfound).symm⟩)
    next hother => exact .inr (.inr ⟨hother, hfound⟩)

end Members

section Params

variable {m : SymbolId} {info : MethodInfo} {params : List SymbolId}
  (hmethod : table.kind? m = some (.method info))

include hmethod

/-- Setting the parameters of a method changes the kind of this method only. -/
theorem kind?_setParams : (table.setParams m params).kind? x =
    if x = m then some (.method { info with params }) else table.kind? x := by
  obtain ⟨symbol, hget, hsymbol⟩ := Option.map_eq_some_iff.1 hmethod
  unfold SymbolTable.kind? setParams
  rw [get?_modify]
  by_cases hx : x = m
  · subst hx
    simp [hget, Symbol.withParams, hsymbol]
  · rw [if_neg hx, if_neg hx]

/-- What is no method is found as before. -/
theorem kind?_setParams_of (hkind : table.kind? x = some kind) (hother : ∀ info, kind ≠ .method info) :
    (table.setParams m params).kind? x = some kind := by
  have hne : x ≠ m := by
    rintro rfl
    rw [hmethod] at hkind
    exact hother info (Option.some.inj hkind).symm
  rw [kind?_setParams hmethod, if_neg hne, hkind]

/-- What is found once the parameters are set: the method with them, or what was there. -/
theorem setParams_cases (hfound : (table.setParams m params).kind? x = some found) :
    x = m ∧ found = .method { info with params } ∨ table.kind? x = some found := by
  rw [kind?_setParams hmethod] at hfound
  split at hfound
  next hsame => exact .inl ⟨hsame, (Option.some.inj hfound).symm⟩
  next => exact .inr hfound

/-- Setting the parameters of a method keeps the members of every class. -/
theorem memberOf_setParams (hmember : table.signature.MemberOf cls x) :
    (table.setParams m params).signature.MemberOf cls x := by
  cases hmember with
  | field hkind => exact .field (kind?_setParams_of hmethod hkind nofun)
  | @method found hkind howner =>
    by_cases hx : x = m
    · subst hx
      obtain rfl := SymbolKind.method.inj (Option.some.inj (hmethod.symm.trans hkind))
      have hset : (table.setParams x params).kind? x = some (.method { info with params }) :=
        (kind?_setParams hmethod).trans (if_pos rfl)
      exact .method hset howner
    · exact .method ((kind?_setParams hmethod).trans ((if_neg hx).trans hkind)) howner

end Params

/-- No symbol has a slot. -/
def Slotless (table : SymbolTable) : Prop :=
  ∀ x symbol, table.get? x = some symbol → symbol.slot = none

/-- A new symbol has no slot. -/
theorem Slotless.add (hslotless : table.Slotless) : (table.add name kind ty span).Slotless := by
  intro x symbol hget
  rw [get?_add] at hget
  split at hget
  next =>
    obtain rfl := Option.some.inj hget
    rfl
  next => exact hslotless x symbol hget

/-- A change that keeps the slots keeps a table without slots. -/
theorem Slotless.modify (hslotless : table.Slotless) {f : Symbol → Symbol}
    (hf : ∀ symbol, (f symbol).slot = symbol.slot) : (table.modify cls f).Slotless := by
  intro x symbol hget
  rw [get?_modify] at hget
  split at hget
  next =>
    obtain ⟨found, hfound, rfl⟩ := Option.map_eq_some_iff.1 hget
    rw [hf]
    exact hslotless x found hfound
  next => exact hslotless x symbol hget

/-- The lists of one sort of members, over all classes. -/
structure Lists (table : SymbolTable) (list : ClassInfo → List SymbolId)
    (belongs : SymbolId → SymbolKind → Prop) : Prop where
  mem_iff : ∀ cls info x, table.kind? cls = some (.cls info) →
    (x ∈ list info ↔ ∃ kind, table.kind? x = some kind ∧ belongs cls kind)
  nodup : ∀ cls info, table.kind? cls = some (.cls info) → (list info).Nodup
  owner : ∀ x kind cls, table.kind? x = some kind → belongs cls kind →
    ∃ info, table.kind? cls = some (.cls info)

namespace Lists

variable {list : ClassInfo → List SymbolId} {belongs : SymbolId → SymbolKind → Prop}

/-- Lists stay right where no member comes or goes. -/
theorem congr (h : before.Lists list belongs)
    (hbelongs : ∀ cls x, (∃ kind, after.kind? x = some kind ∧ belongs cls kind) ↔
      ∃ kind, before.kind? x = some kind ∧ belongs cls kind)
    (hclass : ∀ cls info, after.kind? cls = some (.cls info) →
      before.kind? cls = some (.cls info) ∨ before.kind? cls = none ∧ list info = [])
    (hkept : ∀ cls info, before.kind? cls = some (.cls info) →
      after.kind? cls = some (.cls info)) : after.Lists list belongs where
  mem_iff := by
    intro cls info x hcls
    rw [hbelongs]
    obtain hcls | ⟨hnone, hempty⟩ := hclass cls info hcls
    · exact h.mem_iff cls info x hcls
    · rw [hempty]
      refine iff_of_false (by simp) ?_
      rintro ⟨kind, hkind, howner⟩
      obtain ⟨info, hcls⟩ := h.owner x kind cls hkind howner
      rw [hnone] at hcls
      cases hcls
  nodup := by
    intro cls info hcls
    obtain hcls | ⟨-, hempty⟩ := hclass cls info hcls
    · exact h.nodup cls info hcls
    · simp [hempty]
  owner := by
    intro x kind cls hkind howner
    obtain ⟨kind, hkind, howner⟩ := (hbelongs cls x).1 ⟨kind, hkind, howner⟩
    obtain ⟨info, hcls⟩ := h.owner x kind cls hkind howner
    exact ⟨info, hkept cls info hcls⟩

/-- A new class has no members yet. -/
theorem addClass (h : table.Lists list belongs) (hclass : ∀ cls info, ¬ belongs cls (.cls info))
    (hempty : list {} = []) : (table.addClass name span).Lists list belongs := by
  refine h.congr (fun cls x => ?_) (fun cls info hcls => ?_) fun cls info hcls => ?_
  · unfold SymbolTable.addClass
    rw [kind?_add]
    by_cases hnew : x = table.nextId
    · simp [hnew, kind?_nextId, hclass]
    · rw [if_neg hnew]
  · obtain ⟨rfl, hinfo⟩ | hcls := add_cases hcls
    · obtain rfl := SymbolKind.cls.inj hinfo
      exact .inr ⟨kind?_nextId, hempty⟩
    · exact .inl hcls
  · unfold SymbolTable.addClass
    rw [kind?_add, if_neg (ne_nextId hcls), hcls]

/-- Parameters are no members. -/
theorem setParams (h : table.Lists list belongs) {m : SymbolId} {info : MethodInfo}
    {params : List SymbolId} (hmethod : table.kind? m = some (.method info))
    (hbelongs : ∀ cls, belongs cls (.method { info with params }) ↔ belongs cls (.method info)) :
    (table.setParams m params).Lists list belongs := by
  refine h.congr (fun cls x => ?_) (fun cls found hcls => ?_) fun cls found hcls => ?_
  · rw [kind?_setParams hmethod]
    split
    next heq =>
      subst heq
      simp [hmethod, hbelongs]
    next => rfl
  · obtain ⟨-, hcls⟩ | hcls := setParams_cases hmethod hcls
    · cases hcls
    · exact .inl hcls
  · exact kind?_setParams_of hmethod hcls nofun

/-- A new member is entered last in the list of its class. -/
theorem insertMember (h : table.Lists list belongs) {info : ClassInfo}
    (hcls : table.kind? cls = some (.cls info)) (hkind : ∀ info, kind ≠ .cls info)
    (hclass : ∀ cls info, ¬ belongs cls (.cls info))
    (howner : ∀ other, belongs other kind → other = cls)
    (hlist : ∀ info : ClassInfo, belongs cls kind ∧
        list (info.withMember name kind table.nextId) = list info ++ [table.nextId] ∨
      ¬ belongs cls kind ∧ list (info.withMember name kind table.nextId) = list info) :
    (table.insertMember cls name kind ty span).Lists list belongs := by
  have hne := ne_nextId hcls
  have hbelongs : ∀ other x,
      (∃ found, (table.insertMember cls name kind ty span).kind? x = some found ∧
        belongs other found) ↔
      (∃ found, table.kind? x = some found ∧ belongs other found) ∨
        x = table.nextId ∧ belongs other kind := by
    intro other x
    rw [kind?_insertMember hcls]
    by_cases hnew : x = table.nextId
    · subst hnew
      simp [kind?_nextId]
    · rw [if_neg hnew]
      by_cases hx : x = cls
      · subst hx
        simp [hnew, hcls, hclass]
      · simp [hnew, hx]
  have hfresh : ∀ other info, table.kind? other = some (.cls info) → table.nextId ∉ list info := by
    intro other info hother hmem
    obtain ⟨found, hfound, -⟩ := (h.mem_iff other info _ hother).1 hmem
    exact ne_nextId hfound rfl
  refine ⟨?_, ?_, ?_⟩
  · intro other info' x hother
    rw [hbelongs]
    obtain ⟨-, hnew⟩ | ⟨rfl, hinfo⟩ | ⟨hother', hother⟩ := insertMember_cases hcls hother
    · exact absurd hnew.symm (hkind info')
    · obtain rfl := SymbolKind.cls.inj hinfo
      obtain ⟨hbelongs, hlist⟩ | ⟨hbelongs, hlist⟩ := hlist info
      · rw [hlist, List.mem_append, List.mem_singleton, h.mem_iff _ info x hcls]
        simp [hbelongs]
      · rw [hlist, h.mem_iff _ info x hcls]
        simp [hbelongs]
    · rw [h.mem_iff other info' x hother]
      have hbelongs : ¬ belongs other kind := fun hbelongs => hother' (howner other hbelongs)
      simp [hbelongs]
  · intro other info' hother
    obtain ⟨-, hnew⟩ | ⟨rfl, hinfo⟩ | ⟨-, hother⟩ := insertMember_cases hcls hother
    · exact absurd hnew.symm (hkind info')
    · obtain rfl := SymbolKind.cls.inj hinfo
      obtain ⟨-, hlist⟩ | ⟨-, hlist⟩ := hlist info
      · rw [hlist]
        refine List.nodup_append.2 ⟨h.nodup _ info hcls, by simp, fun x hmem y hmem' => ?_⟩
        obtain rfl := List.mem_singleton.1 hmem'
        rintro rfl
        exact hfresh _ info hcls hmem
      · rw [hlist]
        exact h.nodup _ info hcls
    · exact h.nodup other info' hother
  · intro x found other hfound hbelongs'
    obtain ⟨_, hold, hbelongs'⟩ | ⟨-, hbelongs'⟩ := (hbelongs other x).1 ⟨found, hfound, hbelongs'⟩
    · obtain ⟨info', hother⟩ := h.owner _ _ other hold hbelongs'
      rw [kind?_insertMember hcls, if_neg (ne_nextId hother)]
      split
      next => exact ⟨_, rfl⟩
      next => exact ⟨info', hother⟩
    · obtain rfl := howner other hbelongs'
      rw [kind?_insertMember hcls, if_neg hne, if_pos rfl]
      exact ⟨_, rfl⟩

end Lists

/-- The second table has all declarations of the first. Only classes may have changed, by
    new members. -/
structure Extends (before after : SymbolTable) : Prop where
  size : before.size ≤ after.size
  kept : ∀ x kind, before.kind? x = some kind → (∀ info, kind ≠ .cls info) →
    after.kind? x = some kind
  cls : ∀ x info, before.kind? x = some (.cls info) → ∃ info', after.kind? x = some (.cls info')
  typeOf : ∀ x kind, before.kind? x = some kind → after.typeOf x = before.typeOf x

namespace Extends

theorem refl (table : SymbolTable) : table.Extends table :=
  ⟨Nat.le_refl _, fun _ _ h _ => h, fun _ info h => ⟨info, h⟩, fun _ _ _ => rfl⟩

theorem isSome {before after : SymbolTable} (h : before.Extends after)
    (hkind : before.kind? x = some kind) : ∃ kind, after.kind? x = some kind := by
  cases kind with
  | cls info =>
    obtain ⟨info', hkind⟩ := h.cls x info hkind
    exact ⟨_, hkind⟩
  | _ => exact ⟨_, h.kept x _ hkind nofun⟩

/-- A table that extends an extension extends the first table. -/
theorem trans {t₁ t₂ t₃ : SymbolTable} (h : t₁.Extends t₂) (h' : t₂.Extends t₃) :
    t₁.Extends t₃ where
  size := Nat.le_trans h.size h'.size
  kept := fun x kind hkind hcls => h'.kept x kind (h.kept x kind hkind hcls) hcls
  cls := by
    intro x info hkind
    obtain ⟨info', hkind⟩ := h.cls x info hkind
    exact h'.cls x info' hkind
  typeOf := by
    intro x kind hkind
    obtain ⟨kind', hkind'⟩ := h.isSome hkind
    rw [h'.typeOf x kind' hkind', h.typeOf x kind hkind]

theorem memberOf (h : before.Extends after) (hmember : before.signature.MemberOf cls x) :
    after.signature.MemberOf cls x := by
  cases hmember with
  | field hkind => exact .field (h.kept x _ hkind nofun)
  | method hkind howner => exact .method (h.kept x _ hkind nofun) howner

/-- Adding a symbol extends the table. -/
theorem add : table.Extends (table.add name kind ty span) where
  size := by simp
  kept := by
    intro x found hkind _
    rw [kind?_add, if_neg (ne_nextId hkind), hkind]
  cls := by
    intro x info hkind
    rw [kind?_add, if_neg (ne_nextId hkind), hkind]
    exact ⟨info, rfl⟩
  typeOf := by
    intro x found hkind
    rw [typeOf_add, if_neg (ne_nextId hkind)]

/-- Inserting a member extends the table, although the entry of its class changes. -/
theorem insertMember {info : ClassInfo} (hcls : table.kind? cls = some (.cls info)) :
    table.Extends (table.insertMember cls name kind ty span) where
  size := by simp [SymbolTable.insertMember]
  kept := by
    intro x found hkind hfound
    have hother : x ≠ cls := by
      rintro rfl
      rw [hcls] at hkind
      exact hfound info (Option.some.inj hkind).symm
    rw [kind?_insertMember hcls, if_neg (ne_nextId hkind), if_neg hother, hkind]
  cls := by
    intro x found hkind
    rw [kind?_insertMember hcls, if_neg (ne_nextId hkind)]
    split
    next => exact ⟨_, rfl⟩
    next => exact ⟨found, hkind⟩
  typeOf := by
    intro x found hkind
    rw [typeOf_insertMember, if_neg (ne_nextId hkind)]

/-- The parameters of a new method may be set. -/
theorem setParams (h : before.Extends after) {m : SymbolId} {info : MethodInfo}
    {params : List SymbolId} (hnew : before.kind? m = none)
    (hmethod : after.kind? m = some (.method info)) :
    before.Extends (after.setParams m params) where
  size := by
    simpa [SymbolTable.setParams] using h.size
  kept := by
    intro x kind hkind hcls
    have hne : x ≠ m := by
      rintro rfl
      rw [hnew] at hkind
      cases hkind
    rw [kind?_setParams hmethod, if_neg hne, h.kept x kind hkind hcls]
  cls := by
    intro x info' hkind
    have hne : x ≠ m := by
      rintro rfl
      rw [hnew] at hkind
      cases hkind
    rw [kind?_setParams hmethod, if_neg hne]
    exact h.cls x info' hkind
  typeOf := by
    intro x kind hkind
    rw [typeOf_setParams, h.typeOf x kind hkind]

end Extends

theorem AddsVariables.extends {strict : Bool} (h : AddsVariables kind strict before after) :
    before.Extends after where
  size := h.size
  kept := fun _ _ hkind _ => h.kind?_eq_some hkind
  cls := fun _ info hkind => ⟨info, h.kind?_eq_some hkind⟩
  typeOf := fun _ _ hkind => h.typeOf_eq hkind

/-- Adding variables changes no list of a class. -/
theorem AddsVariables.lists {strict : Bool} (h : AddsVariables kind strict before after)
    {list : ClassInfo → List SymbolId} {belongs : SymbolId → SymbolKind → Prop}
    (hlists : before.Lists list belongs)
    (hvar : ∀ cls kind, belongs cls kind → kind.isVariable = false) :
    after.Lists list belongs := by
  refine hlists.congr (fun cls x => ?_) (fun cls info hcls => .inl (h.kind?_cls_iff.1 hcls))
    fun cls info => h.kind?_eq_some
  exact exists_congr fun found => and_congr_left fun hbelongs => h.kind?_iff (hvar cls found hbelongs)

/-- The parameters come right after their method, in order. -/
structure Follow (table : SymbolTable) (m : SymbolId) (params : List SymbolId) : Prop where
  sorted : params.Pairwise fun p q => p.index < q.index
  after : ∀ p ∈ params, m.index < p.index ∧
    ∀ q : SymbolId, m.index < q.index → q.index ≤ p.index → table.kind? q = some .param

theorem Follow.congr {m : SymbolId} {params : List SymbolId} (h : before.Follow m params)
    (hkept : ∀ q, before.kind? q = some .param → after.kind? q = some .param) :
    after.Follow m params where
  sorted := h.sorted
  after := fun p hmem =>
    ⟨(h.after p hmem).1, fun q hlt hle => hkept q ((h.after p hmem).2 q hlt hle)⟩

/-- The declarations agree with each other, and none has a slot. If types are to avoid
    `void`, those of all but methods do. -/
structure WellFormed (strict : Bool) (table : SymbolTable) : Prop where
  slotless : table.Slotless
  classes : ∀ x, x ∈ table.classes ↔ ∃ info, table.kind? x = some (.cls info)
  nodup : table.classes.Nodup
  members : ∀ cls info name x, table.kind? cls = some (.cls info) →
    info.members.get? name = some x ∨ info.visible.get? name = some x →
      table.signature.MemberOf cls x
  fields : table.Lists (·.fields) SymbolKind.IsFieldOf
  methods : table.Lists (·.methods) SymbolKind.IsMethodOf
  params : ∀ m info, table.kind? m = some (.method info) → table.Follow m info.params
  written : ∀ x kind, table.kind? x = some kind → (table.typeOf x).isWritten = true
  avoidsVoid : strict = true → ∀ x kind, table.kind? x = some kind → kind.isMethod = false →
    (table.typeOf x).avoidsVoid = true

namespace WellFormed

variable {strict : Bool}

/-- Variables do not disturb the declarations. -/
theorem addsVariables (h : before.WellFormed strict) (hadds : AddsVariables kind strict before after) :
    after.WellFormed strict where
  slotless := by
    intro x symbol hget
    by_cases hlt : x.index < before.size
    · rw [hadds.kept x hlt] at hget
      exact h.slotless x symbol hget
    · exact (hadds.added x symbol (Nat.le_of_not_lt hlt) hget).2.1
  classes := by
    intro x
    rw [hadds.classes, h.classes]
    exact exists_congr fun info => hadds.kind?_cls_iff.symm
  nodup := by
    rw [hadds.classes]
    exact h.nodup
  members := by
    intro cls info name x hcls hget
    rw [hadds.kind?_cls_iff] at hcls
    exact hadds.memberOf (h.members cls info name x hcls hget)
  fields := hadds.lists h.fields fun cls found hfound => by
    cases found <;> first | rfl | exact hfound.elim
  methods := hadds.lists h.methods fun cls found hfound => by
    cases found <;> first | rfl | exact hfound.elim
  params := by
    intro m info hmethod
    rw [hadds.kind?_method_iff] at hmethod
    exact (h.params m info hmethod).congr fun q => hadds.kind?_eq_some
  written := by
    intro x found hkind
    obtain ⟨hkind, hty⟩ | ⟨-, hwritten, -⟩ := hadds.kind?_cases hkind
    · rw [hty]
      exact h.written x found hkind
    · exact hwritten
  avoidsVoid := by
    intro hstrict x found hkind hmethod
    obtain ⟨hkind, hty⟩ | ⟨-, -, hvoid⟩ := hadds.kind?_cases hkind
    · rw [hty]
      exact h.avoidsVoid hstrict x found hkind hmethod
    · exact hvoid hstrict

/-- A new class has no members yet. -/
theorem addClass (h : table.WellFormed strict) : (table.addClass name span).WellFormed strict where
  slotless := h.slotless.add
  classes := by
    intro x
    rw [classes_addClass, List.mem_append, List.mem_singleton, h.classes]
    unfold SymbolTable.addClass
    rw [kind?_add]
    by_cases hnew : x = table.nextId
    · simp [hnew]
    · simp [hnew]
  nodup := by
    rw [classes_addClass]
    refine List.nodup_append.2 ⟨h.nodup, by simp, fun x hmem y hmem' => ?_⟩
    obtain rfl := List.mem_singleton.1 hmem'
    obtain ⟨info, hcls⟩ := (h.classes x).1 hmem
    exact ne_nextId hcls
  members := by
    intro cls info other x hcls hget
    obtain ⟨-, hcls⟩ | hcls := add_cases hcls
    · obtain rfl := SymbolKind.cls.inj hcls
      obtain hget | hget := hget <;> simp [Dict.get?_empty] at hget
    · exact Extends.add.memberOf (h.members cls info other x hcls hget)
  fields := h.fields.addClass (fun _ _ => id) rfl
  methods := h.methods.addClass (fun _ _ => id) rfl
  params := by
    intro m info hmethod
    obtain ⟨-, hmethod⟩ | hmethod := add_cases hmethod
    · cases hmethod
    · exact (h.params m info hmethod).congr fun q hparam => Extends.add.kept q _ hparam (by simp)
  written := by
    intro x found hkind
    unfold SymbolTable.addClass at hkind ⊢
    obtain ⟨hnew, -⟩ | hkind := add_cases hkind
    · rw [typeOf_add, if_pos hnew]
      rfl
    · rw [Extends.add.typeOf x found hkind]
      exact h.written x found hkind
  avoidsVoid := by
    intro hstrict x found hkind hmethod
    unfold SymbolTable.addClass at hkind ⊢
    obtain ⟨hnew, -⟩ | hkind := add_cases hkind
    · rw [typeOf_add, if_pos hnew]
      rfl
    · rw [Extends.add.typeOf x found hkind]
      exact h.avoidsVoid hstrict x found hkind hmethod

/-- A new member is one of its class. -/
theorem insertMember (h : table.WellFormed strict) {info : ClassInfo}
    (hcls : table.kind? cls = some (.cls info))
    (hmember : (∃ modifiers, kind = .field cls modifiers) ∨
      ∃ modifiers, kind = .method { owner := cls, modifiers })
    (hwritten : ty.isWritten = true)
    (hvoid : strict = true → kind.isMethod = false → ty.avoidsVoid = true) :
    (table.insertMember cls name kind ty span).WellFormed strict := by
  have hextends : table.Extends (table.insertMember cls name kind ty span) := .insertMember hcls
  have hkind : ∀ info, kind ≠ .cls info := by
    rintro info rfl
    obtain ⟨_, hkind⟩ | ⟨_, hkind⟩ := hmember <;> cases hkind
  have hmemberOf :
      (table.insertMember cls name kind ty span).signature.MemberOf cls table.nextId := by
    have hfound : (table.insertMember cls name kind ty span).kind? table.nextId = some kind := by
      rw [kind?_insertMember hcls, if_pos rfl]
    obtain ⟨modifiers, rfl⟩ | ⟨modifiers, rfl⟩ := hmember
    · exact .field hfound
    · exact .method hfound rfl
  have hclasses : (table.insertMember cls name kind ty span).classes = table.classes := by
    obtain ⟨modifiers, rfl⟩ | ⟨modifiers, rfl⟩ := hmember <;> rfl
  refine ⟨h.slotless.add.modify fun symbol => symbol.withMember_slot _ _ _, ?_, hclasses ▸ h.nodup, ?_, ?_, ?_, ?_, ?_, ?_⟩
  · intro x
    rw [hclasses, h.classes]
    constructor
    · rintro ⟨found, hx⟩
      exact hextends.cls x found hx
    · rintro ⟨found, hx⟩
      obtain ⟨-, hnew⟩ | ⟨rfl, -⟩ | ⟨-, hx⟩ := insertMember_cases hcls hx
      · exact absurd hnew.symm (hkind found)
      · exact ⟨info, hcls⟩
      · exact ⟨found, hx⟩
  · intro other found key x hother hget
    obtain ⟨-, hnew⟩ | ⟨rfl, hinfo⟩ | ⟨-, hother⟩ := insertMember_cases hcls hother
    · exact absurd hnew.symm (hkind found)
    · obtain rfl := SymbolKind.cls.inj hinfo
      obtain rfl | hget := ClassInfo.get?_withMember hget
      · exact hmemberOf
      · exact hextends.memberOf (h.members other info key x hcls hget)
    · exact hextends.memberOf (h.members other found key x hother hget)
  · refine h.fields.insertMember hcls hkind (fun _ _ => id) ?_ fun info => ?_
    · obtain ⟨modifiers, rfl⟩ | ⟨modifiers, rfl⟩ := hmember
      · exact fun other howner => Eq.symm howner
      · exact fun other howner => howner.elim
    · obtain ⟨modifiers, rfl⟩ | ⟨modifiers, rfl⟩ := hmember
      · exact .inl ⟨rfl, rfl⟩
      · exact .inr ⟨id, rfl⟩
  · refine h.methods.insertMember hcls hkind (fun _ _ => id) ?_ fun info => ?_
    · obtain ⟨modifiers, rfl⟩ | ⟨modifiers, rfl⟩ := hmember
      · exact fun other howner => howner.elim
      · exact fun other howner => Eq.symm howner
    · obtain ⟨modifiers, rfl⟩ | ⟨modifiers, rfl⟩ := hmember
      · exact .inr ⟨id, rfl⟩
      · exact .inl ⟨rfl, rfl⟩
  · intro m found hmethod
    obtain ⟨-, hfound⟩ | ⟨-, hfound⟩ | ⟨-, hmethod⟩ := insertMember_cases hcls hmethod
    · obtain ⟨modifiers, rfl⟩ | ⟨modifiers, rfl⟩ := hmember
      · cases hfound
      · obtain rfl := SymbolKind.method.inj hfound
        exact ⟨List.Pairwise.nil, by simp⟩
    · cases hfound
    · exact (h.params m found hmethod).congr fun q hparam => hextends.kept q _ hparam nofun
  · intro x found hfound
    obtain ⟨hnew, -⟩ | ⟨rfl, -⟩ | ⟨-, hfound⟩ := insertMember_cases hcls hfound
    · rwa [typeOf_insertMember, if_pos hnew]
    · rw [hextends.typeOf x _ hcls]
      exact h.written x _ hcls
    · rw [hextends.typeOf x found hfound]
      exact h.written x found hfound
  · intro hstrict x found hfound hmethod
    obtain ⟨hnew, rfl⟩ | ⟨rfl, -⟩ | ⟨-, hfound⟩ := insertMember_cases hcls hfound
    · rw [typeOf_insertMember, if_pos hnew]
      exact hvoid hstrict hmethod
    · rw [hextends.typeOf x _ hcls]
      exact h.avoidsVoid hstrict x _ hcls rfl
    · rw [hextends.typeOf x found hfound]
      exact h.avoidsVoid hstrict x found hfound hmethod

/-- A table stays well formed when a method gets the parameters that follow it in the table. -/
theorem setParams (h : table.WellFormed strict) {m : SymbolId} {info : MethodInfo}
    {params : List SymbolId} (hmethod : table.kind? m = some (.method info))
    (hfollow : table.Follow m params) : (table.setParams m params).WellFormed strict where
  slotless := h.slotless.modify fun symbol => symbol.withParams_slot _
  classes := by
    intro x
    refine (h.classes x).trans ⟨?_, ?_⟩
    · rintro ⟨found, hkind⟩
      exact ⟨found, kind?_setParams_of hmethod hkind nofun⟩
    · rintro ⟨found, hkind⟩
      obtain ⟨-, hcls⟩ | hkind := setParams_cases hmethod hkind
      · cases hcls
      · exact ⟨found, hkind⟩
  nodup := h.nodup
  members := by
    intro cls found key x hcls hget
    obtain ⟨-, hcls⟩ | hcls := setParams_cases hmethod hcls
    · cases hcls
    · exact memberOf_setParams hmethod (h.members cls found key x hcls hget)
  fields := h.fields.setParams hmethod fun _ => Iff.rfl
  methods := h.methods.setParams hmethod fun _ => Iff.rfl
  params := by
    intro x found hkind
    have hparam : ∀ q, table.kind? q = some .param →
        (table.setParams m params).kind? q = some .param :=
      fun q hq => kind?_setParams_of hmethod hq nofun
    obtain ⟨rfl, hfound⟩ | hkind := setParams_cases hmethod hkind
    · obtain rfl := SymbolKind.method.inj hfound
      exact hfollow.congr hparam
    · exact (h.params x found hkind).congr hparam
  written := by
    intro x found hkind
    rw [typeOf_setParams]
    obtain ⟨rfl, -⟩ | hkind := setParams_cases hmethod hkind
    · exact h.written x _ hmethod
    · exact h.written x found hkind
  avoidsVoid := by
    intro hstrict x found hkind hfound
    rw [typeOf_setParams]
    obtain ⟨-, rfl⟩ | hkind := setParams_cases hmethod hkind
    · cases hfound
    · exact h.avoidsVoid hstrict x found hkind hfound

end WellFormed

end SymbolTable

end SmallJava
