import Mathlib.Data.List.Nodup
import SmallJava.Proofs.Declaration.WellFormed
import SmallJava.Proofs.Layout

namespace SmallJava

namespace Signature

variable (sig : Signature)

/-- What is stored for a class: its fields, its size and the parameters of its methods. -/
def storedFor (cls : SymbolId) : List SymbolId :=
  (sig.classInfo cls).fields ++ cls :: (sig.classInfo cls).methods.flatMap sig.paramsOf

theorem map_fst_fieldPlan (fields : List SymbolId) (statics own : Int) :
    (sig.fieldPlan statics own fields).1.map (·.1) = fields := by
  induction fields generalizing statics own with
  | nil => rfl
  | cons field rest ih =>
    unfold fieldPlan
    split <;> simp [ih]

theorem map_fst_paramPlan (params : List SymbolId) (offset : Int) :
    (paramPlan offset params).map (·.1) = params := by
  induction params generalizing offset with
  | nil => rfl
  | cons param rest ih => simp [paramPlan, ih]

theorem map_fst_methodPlan (methods : List SymbolId) :
    (sig.methodPlan methods).map (·.1) = methods.flatMap sig.paramsOf := by
  unfold methodPlan
  rw [List.map_flatMap]
  simp only [map_fst_paramPlan]

/-- The plan names exactly the symbols that are stored for the classes, in order. -/
theorem map_fst_classPlan (classes : List SymbolId) (statics : Int) :
    (sig.classPlan statics classes).1.map (·.1) = classes.flatMap sig.storedFor := by
  induction classes generalizing statics with
  | nil => rfl
  | cons cls rest ih =>
    simp only [classPlan, List.map_append, List.map_cons, map_fst_fieldPlan, map_fst_methodPlan, ih,
      List.flatMap_cons, storedFor]

/-- The parameter at position `i` is planned `i` places above the first one. -/
theorem mem_paramPlan {params : List SymbolId} {offset : Int} {i : Nat} {p : SymbolId}
    (hget : params[i]? = some p) : (p, offset + i) ∈ paramPlan offset params := by
  induction params generalizing offset i with
  | nil => simp at hget
  | cons param rest ih =>
    cases i with
    | zero =>
      obtain rfl : param = p := by simpa using hget
      simp [paramPlan]
    | succ i =>
      have hrest : (p, offset + 1 + i) ∈ paramPlan (offset + 1) rest := ih (by simpa using hget)
      have heq : offset + 1 + (i : Int) = offset + (i + 1 : Nat) := by omega
      rw [heq] at hrest
      exact List.mem_cons_of_mem _ hrest

/-- Static fields are numbered from the first number to the next. -/
theorem mem_fieldPlan (fields : List SymbolId) (statics own : Int) :
    statics ≤ (sig.fieldPlan statics own fields).2.1 ∧ ∀ x ∈ fields,
      ∃ d, (x, d) ∈ (sig.fieldPlan statics own fields).1 ∧
        (sig.isStatic x = true → statics ≤ d ∧ d < (sig.fieldPlan statics own fields).2.1) := by
  induction fields generalizing statics own with
  | nil => exact ⟨Int.le_refl _, by simp⟩
  | cons field rest ih =>
    unfold fieldPlan
    cases hstatic : sig.isStatic field with
    | true =>
      obtain ⟨hle, hrest⟩ := ih (statics + 1) own
      simp only [if_true]
      refine ⟨by omega, fun x hmem => ?_⟩
      obtain rfl | hmem := List.mem_cons.1 hmem
      · exact ⟨statics, by simp, fun _ => by omega⟩
      · obtain ⟨d, hd, hbounds⟩ := hrest x hmem
        refine ⟨d, List.mem_cons_of_mem _ hd, fun hx => ?_⟩
        have hbounds := hbounds hx
        omega
    | false =>
      obtain ⟨hle, hrest⟩ := ih statics (own + 1)
      simp only [Bool.false_eq_true, if_false]
      refine ⟨hle, fun x hmem => ?_⟩
      obtain rfl | hmem := List.mem_cons.1 hmem
      · exact ⟨own, by simp, fun hx => by simp [hstatic] at hx⟩
      · obtain ⟨d, hd, hbounds⟩ := hrest x hmem
        exact ⟨d, List.mem_cons_of_mem _ hd, hbounds⟩

/-- The plan has the fields of all classes, and the static ones are numbered across them. -/
theorem mem_classPlan_field (classes : List SymbolId) (statics : Int) :
    statics ≤ (sig.classPlan statics classes).2 ∧ ∀ cls ∈ classes, ∀ x ∈ (sig.classInfo cls).fields,
      ∃ d, (x, d) ∈ (sig.classPlan statics classes).1 ∧
        (sig.isStatic x = true → statics ≤ d ∧ d < (sig.classPlan statics classes).2) := by
  induction classes generalizing statics with
  | nil => exact ⟨Int.le_refl _, by simp⟩
  | cons first rest ih =>
    obtain ⟨hle, hfields⟩ := sig.mem_fieldPlan (sig.classInfo first).fields statics 0
    obtain ⟨hle', hrest⟩ := ih (sig.fieldPlan statics 0 (sig.classInfo first).fields).2.1
    simp only [classPlan]
    refine ⟨by omega, fun cls hcls x hmem => ?_⟩
    obtain rfl | hcls := List.mem_cons.1 hcls
    · obtain ⟨d, hd, hbounds⟩ := hfields x hmem
      refine ⟨d, by simp [hd], fun hx => ?_⟩
      have hbounds := hbounds hx
      omega
    · obtain ⟨d, hd, hbounds⟩ := hrest cls hcls x hmem
      refine ⟨d, by simp [hd], fun hx => ?_⟩
      have hbounds := hbounds hx
      omega

/-- The plan for the classes holds every parameter of every method. -/
theorem mem_classPlan_param (classes : List SymbolId) (statics : Int) {cls m p : SymbolId} {i : Nat}
    (hcls : cls ∈ classes) (hmethod : m ∈ (sig.classInfo cls).methods)
    (hget : (sig.paramsOf m)[i]? = some p) :
    (p, -((sig.paramsOf m).length : Int) + i) ∈ (sig.classPlan statics classes).1 := by
  induction classes generalizing statics with
  | nil => simp at hcls
  | cons first rest ih =>
    simp only [classPlan, List.mem_append, List.mem_cons]
    obtain rfl | hcls := List.mem_cons.1 hcls
    · refine .inl (.inr (.inr ?_))
      exact List.mem_flatMap.2 ⟨m, hmethod, mem_paramPlan hget⟩
    · exact .inr (ih _ hcls)

end Signature

namespace SymbolTable

variable {table : SymbolTable} {strict : Bool} {cls x : SymbolId}

theorem classInfo_eq {info : ClassInfo} (hcls : table.kind? cls = some (.cls info)) :
    table.signature.classInfo cls = info := by
  simp [Signature.classInfo, hcls, SymbolKind.class?]

namespace WellFormed

theorem kind?_param (h : table.WellFormed strict) {m p : SymbolId} {info : MethodInfo}
    (hmethod : table.kind? m = some (.method info)) (hparam : p ∈ info.params) :
    table.kind? p = some .param := by
  obtain ⟨hlt, hbetween⟩ := (h.params m info hmethod).after p hparam
  exact hbetween p hlt (Nat.le_refl _)

/-- No parameter belongs to two methods: between a method and its parameters there is no
    other method. -/
theorem eq_of_mem_params (h : table.WellFormed strict) {m m' p : SymbolId} {info info' : MethodInfo}
    (hmethod : table.kind? m = some (.method info)) (hparam : p ∈ info.params)
    (hmethod' : table.kind? m' = some (.method info')) (hparam' : p ∈ info'.params) : m = m' := by
  obtain ⟨hlt, hbetween⟩ := (h.params m info hmethod).after p hparam
  obtain ⟨hlt', hbetween'⟩ := (h.params m' info' hmethod').after p hparam'
  obtain hless | heq | hless := Nat.lt_trichotomy m.index m'.index
  · have hkind := hbetween m' hless (Nat.le_of_lt hlt')
    rw [hmethod'] at hkind
    cases hkind
  · obtain ⟨i⟩ := m
    obtain ⟨j⟩ := m'
    exact congrArg SymbolId.mk heq
  · have hkind := hbetween' m hless (Nat.le_of_lt hlt)
    rw [hmethod] at hkind
    cases hkind

theorem nodup_params (h : table.WellFormed strict) {m : SymbolId} {info : MethodInfo}
    (hmethod : table.kind? m = some (.method info)) : info.params.Nodup := by
  refine (h.params m info hmethod).sorted.imp fun hlt heq => ?_
  rw [heq] at hlt
  exact Nat.lt_irrefl _ hlt

theorem mem_methods (h : table.WellFormed strict) {m : SymbolId} {info : MethodInfo}
    (hmethod : table.kind? m = some (.method info)) :
    ∃ cinfo, table.kind? info.owner = some (.cls cinfo) ∧ m ∈ cinfo.methods := by
  obtain ⟨cinfo, hcls⟩ := h.methods.owner m _ info.owner hmethod rfl
  exact ⟨cinfo, hcls, (h.methods.mem_iff _ _ _ hcls).2 ⟨_, hmethod, rfl⟩⟩

/-- What a class lists as a method is a method of this class. -/
theorem exists_of_mem_methods (h : table.WellFormed strict) {info : ClassInfo} {m : SymbolId}
    (hcls : table.kind? cls = some (.cls info)) (hmem : m ∈ info.methods) :
    ∃ minfo, table.kind? m = some (.method minfo) ∧ minfo.owner = cls := by
  obtain ⟨kind, hkind, hbelongs⟩ := (h.methods.mem_iff cls info m hcls).1 hmem
  cases kind with
  | method minfo => exact ⟨minfo, hkind, hbelongs⟩
  | _ => exact hbelongs.elim

/-- What a class lists as a field is a field of this class. -/
theorem exists_of_mem_fields (h : table.WellFormed strict) {info : ClassInfo}
    (hcls : table.kind? cls = some (.cls info)) (hmem : x ∈ info.fields) :
    ∃ modifiers, table.kind? x = some (.field cls modifiers) := by
  obtain ⟨kind, hkind, hbelongs⟩ := (h.fields.mem_iff cls info x hcls).1 hmem
  cases kind with
  | field owner modifiers =>
    obtain rfl : owner = cls := hbelongs
    exact ⟨modifiers, hkind⟩
  | _ => exact hbelongs.elim

theorem mem_fields (h : table.WellFormed strict) {modifiers : Modifiers}
    (hfield : table.kind? x = some (.field cls modifiers)) :
    cls ∈ table.classes ∧ x ∈ (table.signature.classInfo cls).fields := by
  obtain ⟨info, hcls⟩ := h.fields.owner x _ cls hfield rfl
  rw [classInfo_eq hcls]
  exact ⟨(h.classes cls).2 ⟨info, hcls⟩, (h.fields.mem_iff cls info x hcls).2 ⟨_, hfield, rfl⟩⟩

/-- What is stored for a class tells which class it is. -/
theorem storedFor_cases (h : table.WellFormed strict) {info : ClassInfo}
    (hcls : table.kind? cls = some (.cls info)) (hmem : x ∈ table.signature.storedFor cls) :
    (∃ modifiers, table.kind? x = some (.field cls modifiers)) ∨ x = cls ∨
      ∃ m minfo, table.kind? m = some (.method minfo) ∧ minfo.owner = cls ∧ x ∈ minfo.params := by
  unfold Signature.storedFor at hmem
  rw [classInfo_eq hcls] at hmem
  obtain hmem | hmem := List.mem_append.1 hmem
  · exact .inl (h.exists_of_mem_fields hcls hmem)
  · obtain rfl | hmem := List.mem_cons.1 hmem
    · exact .inr (.inl rfl)
    · obtain ⟨m, hmethod, hparam⟩ := List.mem_flatMap.1 hmem
      obtain ⟨minfo, hkind, howner⟩ := h.exists_of_mem_methods hcls hmethod
      rw [paramsOf_eq hkind] at hparam
      exact .inr (.inr ⟨m, minfo, hkind, howner, hparam⟩)

/-- No symbol is stored twice for one class: fields, the class itself and parameters are of
    different kinds, and each list is free of repetition. -/
theorem nodup_storedFor (h : table.WellFormed strict) {info : ClassInfo}
    (hcls : table.kind? cls = some (.cls info)) : (table.signature.storedFor cls).Nodup := by
  have hparam : ∀ x ∈ info.methods.flatMap table.signature.paramsOf,
      table.kind? x = some .param := by
    intro x hmem
    obtain ⟨m, hmethod, hparam⟩ := List.mem_flatMap.1 hmem
    obtain ⟨minfo, hkind, -⟩ := h.exists_of_mem_methods hcls hmethod
    rw [paramsOf_eq hkind] at hparam
    exact h.kind?_param hkind hparam
  unfold Signature.storedFor
  rw [classInfo_eq hcls]
  refine List.nodup_append.2 ⟨h.fields.nodup cls info hcls, List.nodup_cons.2 ⟨?_, ?_⟩, ?_⟩
  · intro hmem
    have hkind := hparam cls hmem
    rw [hcls] at hkind
    cases hkind
  · rw [List.nodup_flatMap]
    refine ⟨fun m hmethod => ?_, (h.methods.nodup cls info hcls).imp_of_mem ?_⟩
    · obtain ⟨minfo, hkind, -⟩ := h.exists_of_mem_methods hcls hmethod
      rw [paramsOf_eq hkind]
      exact h.nodup_params hkind
    · intro m m' hmethod hmethod' hne p hp hp'
      obtain ⟨minfo, hkind, -⟩ := h.exists_of_mem_methods hcls hmethod
      obtain ⟨minfo', hkind', -⟩ := h.exists_of_mem_methods hcls hmethod'
      rw [paramsOf_eq hkind] at hp
      rw [paramsOf_eq hkind'] at hp'
      exact hne (h.eq_of_mem_params hkind hp hkind' hp')
  · intro x hfield y hother
    obtain ⟨modifiers, hkind⟩ := h.exists_of_mem_fields hcls hfield
    rintro rfl
    obtain rfl | hmem := List.mem_cons.1 hother
    · rw [hcls] at hkind
      cases hkind
    · rw [hparam x hmem] at hkind
      cases hkind

/-- Nothing is stored for two classes. -/
theorem eq_of_mem_storedFor (h : table.WellFormed strict) {cls' : SymbolId} {info info' : ClassInfo}
    (hcls : table.kind? cls = some (.cls info)) (hcls' : table.kind? cls' = some (.cls info'))
    (hmem : x ∈ table.signature.storedFor cls) (hmem' : x ∈ table.signature.storedFor cls') :
    cls = cls' := by
  obtain ⟨modifiers, hkind⟩ | rfl | ⟨m, minfo, hmethod, howner, hparam⟩ :=
    h.storedFor_cases hcls hmem
  · obtain ⟨modifiers', hkind'⟩ | rfl | ⟨m', minfo', hmethod', -, hparam'⟩ :=
      h.storedFor_cases hcls' hmem'
    · rw [hkind] at hkind'
      exact (SymbolKind.field.inj (Option.some.inj hkind')).1
    · rw [hkind] at hcls'
      cases hcls'
    · rw [h.kind?_param hmethod' hparam'] at hkind
      cases hkind
  · obtain ⟨modifiers', hkind'⟩ | rfl | ⟨m', minfo', hmethod', -, hparam'⟩ :=
      h.storedFor_cases hcls' hmem'
    · rw [hcls] at hkind'
      cases hkind'
    · rfl
    · rw [h.kind?_param hmethod' hparam'] at hcls
      cases hcls
  · have hkind := h.kind?_param hmethod hparam
    obtain ⟨modifiers', hkind'⟩ | rfl | ⟨m', minfo', hmethod', howner', hparam'⟩ :=
      h.storedFor_cases hcls' hmem'
    · rw [hkind] at hkind'
      cases hkind'
    · rw [hkind] at hcls'
      cases hcls'
    · obtain rfl := h.eq_of_mem_params hmethod hparam hmethod' hparam'
      rw [hmethod] at hmethod'
      obtain rfl := SymbolKind.method.inj (Option.some.inj hmethod')
      exact howner.symm.trans howner'

/-- The plan stores every symbol once. -/
theorem nodup_stored (h : table.WellFormed strict) :
    (table.classes.flatMap table.signature.storedFor).Nodup := by
  rw [List.nodup_flatMap]
  refine ⟨fun cls hmem => ?_, h.nodup.imp_of_mem ?_⟩
  · obtain ⟨info, hcls⟩ := (h.classes cls).1 hmem
    exact h.nodup_storedFor hcls
  · intro cls cls' hmem hmem' hne x hx hx'
    obtain ⟨info, hcls⟩ := (h.classes cls).1 hmem
    obtain ⟨info', hcls'⟩ := (h.classes cls').1 hmem'
    exact hne (h.eq_of_mem_storedFor hcls hcls' hx hx')

end WellFormed

/-- Where the symbols of the first table are stored according to the second: static fields
    below their number, parameters right below the frame of their method. Local variables and
    methods have no slot yet. -/
structure LaidOut (before after : SymbolTable) (statics : Int) : Prop where
  assigned : Assigned before after
  fields : ∀ x cls modifiers, before.kind? x = some (.field cls modifiers) →
    ∃ d, after.slot? x = some d ∧ (modifiers.isStatic = true → 0 ≤ d ∧ d < statics)
  classes : ∀ cls info, before.kind? cls = some (.cls info) → (after.slot? cls).isSome
  params : ∀ m info, before.kind? m = some (.method info) → ∀ (i : Nat) p,
    info.params[i]? = some p → after.slot? p = some (i - info.params.length : Int)
  locals : ∀ x, before.kind? x = some .localVar → after.slot? x = none
  methods : ∀ m info, before.kind? m = some (.method info) → after.slot? m = none

namespace WellFormed

theorem slot?_eq_none (h : table.WellFormed strict) (x : SymbolId) : table.slot? x = none := by
  unfold slot?
  cases hget : table.get? x with
  | none => rfl
  | some symbol => exact h.slotless x symbol hget

/-- What is stored is known, and is neither a method nor a local variable. -/
theorem kind?_of_mem_stored (h : table.WellFormed strict)
    (hmem : x ∈ table.classes.flatMap table.signature.storedFor) :
    ∃ kind, table.kind? x = some kind ∧ kind.isMethod = false ∧ kind ≠ .localVar := by
  obtain ⟨cls, hcls, hmem⟩ := List.mem_flatMap.1 hmem
  obtain ⟨info, hcls⟩ := (h.classes cls).1 hcls
  obtain ⟨modifiers, hkind⟩ | rfl | ⟨m, minfo, hmethod, -, hparam⟩ := h.storedFor_cases hcls hmem
  · exact ⟨_, hkind, rfl, nofun⟩
  · exact ⟨_, hcls, rfl, nofun⟩
  · exact ⟨_, h.kind?_param hmethod hparam, rfl, nofun⟩

/-- The plan of well-formed declarations can be followed. What is not in it gets no slot. -/
theorem layout_plan (h : table.WellFormed strict) :
    ∃ after, SlotWriter.layout table = .ok (SlotWriter.plan table).2 after ∧
      (∀ x d, (x, d) ∈ (SlotWriter.plan table).1 → (table.kind? x).isSome → after.slot? x = some d) ∧
      ∀ x, x ∉ table.classes.flatMap table.signature.storedFor → after.slot? x = none := by
  have hkeys : (SlotWriter.plan table).1.map (·.1) = table.classes.flatMap table.signature.storedFor :=
    table.signature.map_fst_classPlan table.classes 0
  obtain ⟨after, hassign, hplaced, hother⟩ := SlotWriter.assignAll_spec (SlotWriter.plan table).1 table
    (hkeys ▸ h.nodup_stored) fun x _ => h.slot?_eq_none x
  refine ⟨after, ?_, hplaced, fun x hout => ?_⟩
  · rw [SlotWriter.layout_eq table fun cls hmem => (h.classes cls).1 hmem]
    exact (bind_of_ok hassign).trans rfl
  · rw [hother x (hkeys ▸ hout), h.slot?_eq_none]

/-- Whatever the layout makes of well-formed declarations follows the plan. -/
theorem placed_of_layout (h : table.WellFormed strict) {statics : Int} {after : SymbolTable}
    (hlayout : SlotWriter.layout table = .ok statics after) :
    (SlotWriter.plan table).2 = statics ∧
      (∀ x d, (x, d) ∈ (SlotWriter.plan table).1 → (table.kind? x).isSome → after.slot? x = some d) ∧
      ∀ x, x ∉ table.classes.flatMap table.signature.storedFor → after.slot? x = none := by
  obtain ⟨after', hlayout', hplaced, hother⟩ := h.layout_plan
  obtain ⟨rfl, rfl⟩ := EStateM.Result.ok.inj (hlayout.symm.trans hlayout')
  exact ⟨rfl, hplaced, hother⟩

/-- The layout of well-formed declarations never fails. -/
theorem layout (h : table.WellFormed strict) :
    ∃ statics after, SlotWriter.layout table = .ok statics after ∧ table.LaidOut after statics := by
  have hkeys : (SlotWriter.plan table).1.map (·.1) = table.classes.flatMap table.signature.storedFor :=
    table.signature.map_fst_classPlan table.classes 0
  obtain ⟨after, hlayout, hplaced, hother⟩ := h.layout_plan
  refine ⟨_, after, hlayout, SlotWriter.assigned_of_layout hlayout, ?_, ?_, ?_, ?_, ?_⟩
  · intro x cls modifiers hkind
    obtain ⟨hcls, hmem⟩ := h.mem_fields hkind
    obtain ⟨d, hd, hbounds⟩ :=
      (table.signature.mem_classPlan_field table.classes 0).2 cls hcls x hmem
    refine ⟨d, hplaced x d hd (by simp [hkind]), fun hstatic => hbounds ?_⟩
    rw [Signature.isStatic_of_field _ hkind, hstatic]
  · intro cls info hcls
    have hmem : cls ∈ (SlotWriter.plan table).1.map (·.1) := by
      rw [hkeys]
      exact List.mem_flatMap.2 ⟨cls, (h.classes cls).2 ⟨info, hcls⟩, by simp [Signature.storedFor]⟩
    obtain ⟨⟨_, size⟩, hentry, rfl⟩ := List.mem_map.1 hmem
    rw [hplaced _ size hentry (by simp [hcls])]
    rfl
  · intro m info hmethod i p hget
    obtain ⟨cinfo, hcls, hmem⟩ := h.mem_methods hmethod
    rw [← classInfo_eq hcls] at hmem
    have hparam := table.signature.mem_classPlan_param table.classes 0
      ((h.classes _).2 ⟨cinfo, hcls⟩) hmem (p := p) (i := i) (by rwa [paramsOf_eq hmethod])
    rw [paramsOf_eq hmethod] at hparam
    have hkind := h.kind?_param hmethod (List.mem_of_getElem? hget)
    rw [hplaced p _ hparam (by simp [hkind])]
    congr 1
    omega
  · intro x hkind
    refine hother x fun hmem => ?_
    obtain ⟨kind, hkind', -, hne⟩ := h.kind?_of_mem_stored hmem
    rw [hkind] at hkind'
    exact hne (Option.some.inj hkind').symm
  · intro m info hmethod
    refine hother m fun hmem => ?_
    obtain ⟨kind, hkind', hne, -⟩ := h.kind?_of_mem_stored hmem
    rw [hmethod] at hkind'
    obtain rfl := Option.some.inj hkind'
    cases hne

theorem laidOut_of_layout (h : table.WellFormed strict) {statics : Int} {after : SymbolTable}
    (hlayout : SlotWriter.layout table = .ok statics after) : table.LaidOut after statics := by
  obtain ⟨statics', after', hlayout', hlaidOut⟩ := h.layout
  obtain ⟨rfl, rfl⟩ := EStateM.Result.ok.inj (hlayout.symm.trans hlayout')
  exact hlaidOut

end WellFormed

end SymbolTable

end SmallJava
