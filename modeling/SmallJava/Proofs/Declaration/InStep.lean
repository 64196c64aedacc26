import SmallJava.Proofs.Declaration.History
import SmallJava.Proofs.Scoping.Access

/-! The lists and maps of a symbol table stay in step, whatever is done to it. -/

namespace SmallJava

namespace SymbolTable

variable {before after table : SymbolTable} {x cls : SymbolId} {name : String} {kind : SymbolKind}
  {ty : Ty} {span : Span}

/-- What is asked of a kind without looking at members and parameters is seen from the head. -/
theorem any_kind?_congr {p : SymbolKind → Bool} (hp : ∀ kind, p kind.bare = p kind)
    (hhead : (after.get? x).map Symbol.head = (before.get? x).map Symbol.head) :
    (after.kind? x).any p = (before.kind? x).any p := by
  have hkind : ∀ table : SymbolTable,
      (table.kind? x).any p = ((table.get? x).map Symbol.head).any fun symbol => p symbol.kind := by
    intro table
    unfold kind?
    cases table.get? x <;> simp [Symbol.head, hp]
  rw [hkind, hkind, hhead]

/-- The symbols of the first table are in the second as they were declared. -/
structure Keeps (before after : SymbolTable) : Prop where
  size : before.size ≤ after.size
  head : ∀ x : SymbolId, x.index < before.size →
    (after.get? x).map Symbol.head = (before.get? x).map Symbol.head

namespace Keeps

theorem add : table.Keeps (table.add name kind ty span) where
  size := by simp
  head := by
    intro x hlt
    rw [head_add, if_neg]
    rintro rfl
    exact Nat.lt_irrefl _ hlt

theorem modify {f : Symbol → Symbol} (hf : ∀ symbol, (f symbol).head = symbol.head) :
    table.Keeps (table.modify cls f) where
  size := by simp
  head := fun _ _ => map_get?_modify hf _ _ _

/-- A step that keeps the symbols keeps their names. -/
theorem nameOf_eq (h : before.Keeps after) (hlt : x.index < before.size) :
    after.nameOf x = before.nameOf x := by
  have hname : ∀ table : SymbolTable,
      table.nameOf x = (((table.get? x).map Symbol.head).map (·.name)).getD "" := by
    intro table
    rw [Option.map_map]
    rfl
  rw [hname, hname, h.head x hlt]

theorem any_kind?_eq (h : before.Keeps after) {p : SymbolKind → Bool}
    (hp : ∀ kind, p kind.bare = p kind) (hlt : x.index < before.size) :
    (after.kind? x).any p = (before.kind? x).any p :=
  any_kind?_congr hp (h.head x hlt)

theorem isPrivate_eq (h : before.Keeps after) (hlt : x.index < before.size) :
    after.isPrivate x = before.isPrivate x :=
  h.any_kind?_eq (fun kind => by cases kind <;> rfl) hlt

end Keeps

/-- The symbols are of one sort and in the order of their declaration. -/
structure InOrder (table : SymbolTable) (ids : List SymbolId) (sort : SymbolKind → Bool) : Prop where
  sorted : ids.Pairwise fun x y => x.index < y.index
  sort : ∀ x ∈ ids, (table.kind? x).any sort = true

theorem lt_size_of_any_kind? {sort : SymbolKind → Bool} (hsort : (table.kind? x).any sort = true) :
    x.index < table.size := by
  obtain ⟨kind, hkind, -⟩ := Option.any_eq_true _ _ |>.1 hsort
  exact lt_size_of_kind? hkind

namespace InOrder

variable {ids ids' : List SymbolId} {sort sort' : SymbolKind → Bool}

/-- Identifiers that are in order stay in order when symbols are added. -/
theorem mono (h : before.InOrder ids sort) (hkeeps : before.Keeps after)
    (hbare : ∀ kind : SymbolKind, sort kind.bare = sort kind) : after.InOrder ids sort where
  sorted := h.sorted
  sort := by
    intro x hmem
    have hsort := h.sort x hmem
    rw [hkeeps.any_kind?_eq hbare (lt_size_of_any_kind? hsort)]
    exact hsort

/-- A later symbol goes to the end of the list, if it is of the sort. -/
theorem append (h : table.InOrder ids sort) (hlate : ∀ y ∈ ids, y.index < x.index)
    (hkind : table.kind? x = some kind) :
    table.InOrder (if sort kind then ids ++ [x] else ids) sort := by
  split
  next hsort =>
    refine ⟨List.pairwise_append.2 ⟨h.sorted, List.pairwise_singleton _ _, ?_⟩, ?_⟩
    · intro y hmem z hz
      obtain rfl := List.mem_singleton.1 hz
      exact hlate y hmem
    · intro y hmem
      obtain hmem | hmem := List.mem_append.1 hmem
      · exact h.sort y hmem
      · obtain rfl := List.mem_singleton.1 hmem
        rw [hkind, Option.any_some, hsort]
  next => exact h

/-- No symbol is listed twice if none is of both sorts. -/
theorem nodup_append (h : table.InOrder ids sort) (h' : table.InOrder ids' sort')
    (hsorts : ∀ kind, sort kind = true → sort' kind = false) : (ids ++ ids').Nodup := by
  have hnodup : ∀ {ids : List SymbolId}, (ids.Pairwise fun x y => x.index < y.index) → ids.Nodup :=
    fun hsorted => hsorted.imp fun hlt heq => Nat.ne_of_lt hlt (congrArg SymbolId.index heq)
  refine List.nodup_append.2 ⟨hnodup h.sorted, hnodup h'.sorted, ?_⟩
  rintro x hmem _ hmem' rfl
  obtain ⟨kind, hkind, hsort⟩ := Option.any_eq_true _ _ |>.1 (h.sort x hmem)
  have hsort' := h'.sort x hmem'
  rw [hkind, Option.any_some, hsorts kind hsort] at hsort'
  cases hsort'

end InOrder

end SymbolTable

namespace ClassInfo

variable {info : ClassInfo} {table before after : SymbolTable} {x y : SymbolId} {name : String}
  {kind : SymbolKind}

/-- The maps and the lists of a class have the same members and tell the truth of them. -/
structure InStep (info : ClassInfo) (table : SymbolTable) : Prop where
  named : ∀ name x, info.members.get? name = some x →
    x.index < table.size ∧ table.nameOf x = name
  fields : table.InOrder info.fields (·.isField)
  methods : table.InOrder info.methods (·.isMethod)
  nodup : (info.fields ++ info.methods).Nodup
  mem_iff : ∀ x, x ∈ info.fields ++ info.methods ↔ ∃ name, info.members.get? name = some x
  visible : ∀ name x, info.visible.get? name = some x ↔
    info.members.get? name = some x ∧ table.isPrivate x = false

theorem nodup_of_inOrder (hfields : table.InOrder info.fields (·.isField))
    (hmethods : table.InOrder info.methods (·.isMethod)) : (info.fields ++ info.methods).Nodup :=
  hfields.nodup_append hmethods fun kind hfield => by cases kind <;> first | rfl | cases hfield

/-- A member is listed with the fields or with the methods. -/
theorem mem_withMember (hsort : (kind.isField || kind.isMethod) = true) :
    y ∈ (info.withMember name kind x).fields ++ (info.withMember name kind x).methods ↔
      y = x ∨ y ∈ info.fields ++ info.methods := by
  cases kind with
  | field =>
    change y ∈ info.fields ++ [x] ++ info.methods ↔ _
    simp [or_left_comm]
  | method =>
    change y ∈ info.fields ++ (info.methods ++ [x]) ↔ _
    simp [or_left_comm, or_comm]
  | _ => cases hsort

/-- A free name can be given without another one being lost. -/
theorem exists_get?_withMember (hfree : info.members.get? name = none) :
    (∃ key, (info.withMember name kind x).members.get? key = some y) ↔
      y = x ∨ ∃ key, info.members.get? key = some y := by
  unfold withMember
  constructor
  · rintro ⟨key, hget⟩
    rw [Dict.get?_insert] at hget
    split at hget
    next => exact .inl (Option.some.inj hget).symm
    next => exact .inr ⟨key, hget⟩
  · rintro (rfl | ⟨key, hget⟩)
    · exact ⟨name, by rw [Dict.get?_insert, if_pos rfl]⟩
    · refine ⟨key, ?_⟩
      rw [Dict.get?_insert, if_neg, hget]
      rintro rfl
      rw [hfree] at hget
      cases hget

namespace InStep

theorem empty (table : SymbolTable) : InStep {} table where
  named := by simp
  fields := ⟨.nil, by simp⟩
  methods := ⟨.nil, by simp⟩
  nodup := by simp
  mem_iff := by simp
  visible := by simp

/-- The lists of a class stay in step with the table when symbols are added. -/
theorem mono (h : info.InStep before) (hkeeps : before.Keeps after) : info.InStep after where
  named := by
    intro name x hget
    obtain ⟨hlt, hname⟩ := h.named name x hget
    exact ⟨Nat.lt_of_lt_of_le hlt hkeeps.size, (hkeeps.nameOf_eq hlt).trans hname⟩
  fields := h.fields.mono hkeeps fun kind => by cases kind <;> rfl
  methods := h.methods.mono hkeeps fun kind => by cases kind <;> rfl
  nodup := h.nodup
  mem_iff := h.mem_iff
  visible := by
    intro name x
    rw [h.visible]
    refine and_congr_right fun hget => ?_
    rw [hkeeps.isPrivate_eq (h.named name x hget).1]

/-- A symbol that came later than all members becomes one under a free name. -/
theorem withMember (h : info.InStep table) (hfree : info.members.get? name = none)
    (hsort : (kind.isField || kind.isMethod) = true) (hkind : table.kind? x = some kind)
    (hname : table.nameOf x = name)
    (hlate : ∀ key y, info.members.get? key = some y → y.index < x.index) :
    (info.withMember name kind x).InStep table := by
  have hlisted : ∀ y ∈ info.fields ++ info.methods, y.index < x.index := by
    intro y hmem
    obtain ⟨key, hget⟩ := (h.mem_iff y).1 hmem
    exact hlate key y hget
  have hfields : table.InOrder (info.withMember name kind x).fields (·.isField) :=
    h.fields.append (fun y hmem => hlisted y (List.mem_append_left _ hmem)) hkind
  have hmethods : table.InOrder (info.withMember name kind x).methods (·.isMethod) :=
    h.methods.append (fun y hmem => hlisted y (List.mem_append_right _ hmem)) hkind
  refine ⟨?_, hfields, hmethods, nodup_of_inOrder hfields hmethods, fun y => ?_, fun key y => ?_⟩
  · intro key y hget
    unfold ClassInfo.withMember at hget
    rw [Dict.get?_insert] at hget
    split at hget
    next hkey =>
      obtain rfl := Option.some.inj hget
      exact ⟨SymbolTable.lt_size_of_kind? hkind, hkey ▸ hname⟩
    next => exact h.named key y hget
  · rw [mem_withMember hsort, h.mem_iff, exists_get?_withMember hfree]
  · have hprivate : table.isPrivate x = kind.modifiers?.any (·.isPrivate) := by
      unfold SymbolTable.isPrivate
      rw [hkind, Option.any_some]
    unfold ClassInfo.withMember
    rw [Dict.get?_insert]
    by_cases hkey : key = name
    · -- the name was free, so it is not visible unless the new member is
      subst hkey
      have hnone : info.visible.get? key = some y ↔ False := by simp [h.visible, hfree]
      cases hmodifier : kind.modifiers?.any (·.isPrivate) with
      | true =>
        simp only [if_true, hnone, false_iff, not_and, Option.some.injEq]
        rintro rfl
        simp [hprivate, hmodifier]
      | false =>
        simp only [Bool.false_eq_true, if_false, Dict.get?_insert, if_true, Option.some.injEq]
        refine ⟨fun heq => ⟨heq, ?_⟩, And.left⟩
        rw [← heq, hprivate, hmodifier]
    · rw [if_neg hkey, ← h.visible]
      split
      next => rfl
      next => rw [Dict.get?_insert, if_neg hkey]

end InStep

end ClassInfo

namespace SymbolTable

variable {table : SymbolTable} {x cls : SymbolId} {name : String} {kind : SymbolKind} {ty : Ty}
  {span : Span}

/-- The classes are the symbols that are classes, and each of them is in step with its members. -/
structure Consistent (table : SymbolTable) : Prop where
  sorted : table.classes.Pairwise fun c d => c.index < d.index
  mem_classes : ∀ x, x ∈ table.classes ↔ table.isClass x = true
  members : ∀ cls info, table.classInfo? cls = some info → info.InStep table

namespace Consistent

theorem empty : Consistent {} where
  sorted := .nil
  mem_classes := by
    intro x
    simp [isClass, kind?, get?]
  members := by
    intro cls info hcls
    simp [classInfo?, kind?, get?] at hcls

/-- A new class has no members yet. -/
theorem add (h : table.Consistent) (hempty : kind.isClass = true → kind = .cls {}) :
    (table.add name kind ty span).Consistent where
  sorted := by
    unfold SymbolTable.add
    split
    next =>
      refine List.pairwise_append.2 ⟨h.sorted, List.pairwise_singleton _ _, fun c hc d hd => ?_⟩
      obtain rfl := List.mem_singleton.1 hd
      exact lt_size_of_any_kind? ((h.mem_classes c).1 hc)
    next => exact h.sorted
  mem_classes := by
    intro x
    have hclass : (table.add name kind ty span).isClass x =
        if x = table.nextId then kind.isClass else table.isClass x := by
      unfold isClass
      rw [kind?_add]
      split <;> rfl
    have hlisted : x ∈ (table.add name kind ty span).classes ↔
        x ∈ table.classes ∨ x = table.nextId ∧ kind.isClass = true := by
      unfold SymbolTable.add
      cases kind.isClass <;> simp
    rw [hlisted, hclass, h.mem_classes]
    split
    next hnew =>
      have hnone : table.isClass table.nextId = false := by simp [isClass, kind?_nextId]
      simp [hnew, hnone]
    next hold => simp [hold]
  members := by
    intro cls info hcls
    rw [classInfo?_add] at hcls
    split at hcls
    next =>
      obtain rfl := hempty (Option.isSome_of_eq_some hcls)
      obtain rfl := Option.some.inj hcls
      exact .empty _
    next => exact (h.members cls info hcls).mono .add

/-- A change that leaves the heads alone may concern members only. -/
theorem modify (h : table.Consistent) {f : Symbol → Symbol}
    (hhead : ∀ symbol, (f symbol).head = symbol.head)
    (hmembers : ∀ c info, (table.modify x f).classInfo? c = some info → info.InStep table) :
    (table.modify x f).Consistent where
  sorted := h.sorted
  mem_classes := by
    intro c
    have hclass : (table.modify x f).isClass c = table.isClass c :=
      any_kind?_congr (fun kind => by cases kind <;> rfl) (map_get?_modify hhead _ _ _)
    rw [hclass]
    exact h.mem_classes c
  members := fun c info hc => (hmembers c info hc).mono (.modify hhead)

/-- A change that keeps the heads and the class entries of all symbols keeps the table consistent.
    -/
theorem modify_same (h : table.Consistent) {f : Symbol → Symbol}
    (hhead : ∀ symbol, (f symbol).head = symbol.head)
    (hclass : ∀ symbol, (f symbol).kind.class? = symbol.kind.class?) :
    (table.modify x f).Consistent := by
  refine h.modify hhead fun c info hc => ?_
  rw [classInfo?_modify hclass] at hc
  exact h.members c info hc

/-- Entering a member keeps the table consistent if the lists of its class are in step afterwards.
    -/
theorem withMember (h : table.Consistent) {info : ClassInfo}
    (hcls : table.classInfo? cls = some info) (hmember : (info.withMember name kind x).InStep table) :
    (table.modify cls (·.withMember name kind x)).Consistent := by
  refine h.modify (fun symbol => symbol.head_withMember _ _ _) fun c found hc => ?_
  rw [classInfo?_modify_withMember hcls] at hc
  split at hc
  next =>
    obtain rfl := Option.some.inj hc
    exact hmember
  next => exact h.members c found hc

end Consistent

end SymbolTable

end SmallJava
