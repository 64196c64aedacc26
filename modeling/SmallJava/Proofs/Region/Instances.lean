import SmallJava.Proofs.Storage

namespace SmallJava

namespace Signature

variable (sig : Signature)

/-- The fields that each object of a class has. -/
def instanceFields (cls : SymbolId) : List SymbolId :=
  (sig.classInfo cls).fields.filter (!sig.isStatic ·)

/-- Instance fields are numbered from the first number to the next. -/
theorem fieldPlan_own (fields : List SymbolId) (statics own : Int) :
    (sig.fieldPlan statics own fields).2.2 = own + (fields.filter (!sig.isStatic ·)).length ∧
      ∀ x d, (x, d) ∈ (sig.fieldPlan statics own fields).1 → sig.isStatic x = false →
        own ≤ d ∧ d < (sig.fieldPlan statics own fields).2.2 := by
  induction fields generalizing statics own with
  | nil => simp [fieldPlan]
  | cons field rest ih =>
    unfold fieldPlan
    cases hstatic : sig.isStatic field with
    | true =>
      obtain ⟨hcount, hrest⟩ := ih (statics + 1) own
      simp only [if_true]
      refine ⟨by simpa [hstatic] using hcount, fun x d hmem hx => ?_⟩
      obtain hmem | hmem := List.mem_cons.1 hmem
      · obtain ⟨rfl, rfl⟩ := Prod.mk.inj hmem
        rw [hstatic] at hx
        cases hx
      · exact hrest x d hmem hx
    | false =>
      obtain ⟨hcount, hrest⟩ := ih statics (own + 1)
      simp only [Bool.false_eq_true, if_false]
      have hlength : ((field :: rest).filter (!sig.isStatic ·)).length =
          (rest.filter (!sig.isStatic ·)).length + 1 := by
        simp [hstatic]
      refine ⟨by rw [hlength]; omega, fun x d hmem hx => ?_⟩
      obtain hmem | hmem := List.mem_cons.1 hmem
      · obtain ⟨rfl, rfl⟩ := Prod.mk.inj hmem
        omega
      · have hbounds := hrest x d hmem hx
        omega

/-- A class is stored with the number of its instance fields, which are numbered below it. -/
theorem mem_classPlan_instance (classes : List SymbolId) (statics : Int) {cls : SymbolId}
    (hcls : cls ∈ classes) :
    (cls, ((sig.instanceFields cls).length : Int)) ∈ (sig.classPlan statics classes).1 ∧
      ∀ x ∈ (sig.classInfo cls).fields, sig.isStatic x = false →
        ∃ d, (x, d) ∈ (sig.classPlan statics classes).1 ∧ 0 ≤ d ∧
          d < (sig.instanceFields cls).length := by
  induction classes generalizing statics with
  | nil => cases hcls
  | cons first rest ih =>
    simp only [classPlan, List.mem_append, List.mem_cons]
    obtain rfl | hcls := List.mem_cons.1 hcls
    · obtain ⟨hcount, hbounds⟩ := sig.fieldPlan_own (sig.classInfo cls).fields statics 0
      rw [Int.zero_add] at hcount
      refine ⟨.inl (.inr (.inl (by rw [hcount]; rfl))), fun x hmem hx => ?_⟩
      obtain ⟨d, hd, -⟩ := (sig.mem_fieldPlan (sig.classInfo cls).fields statics 0).2 x hmem
      obtain ⟨hlo, hhi⟩ := hbounds x d hd hx
      exact ⟨d, .inl (.inl hd), hlo, hcount ▸ hhi⟩
    · obtain ⟨hsize, hfields⟩ := ih (sig.fieldPlan statics 0 (sig.classInfo first).fields).2.1 hcls
      refine ⟨.inr hsize, fun x hmem hx => ?_⟩
      obtain ⟨d, hd, hbounds⟩ := hfields x hmem hx
      exact ⟨d, .inr hd, hbounds⟩

end Signature

namespace SymbolTable

variable {table after : SymbolTable} {strict : Bool} {statics : Int} {cls : SymbolId}

theorem WellFormed.mem_instanceFields (h : table.WellFormed strict) {x : SymbolId}
    {modifiers : Modifiers} (hfield : table.kind? x = some (.field cls modifiers))
    (hstatic : modifiers.isStatic = false) : x ∈ table.signature.instanceFields cls := by
  refine List.mem_filter.2 ⟨(h.mem_fields hfield).2, ?_⟩
  rw [Signature.isStatic_of_field _ hfield, hstatic]
  rfl

/-- After the layout, a class has the number of its instance fields as its slot, and these have
    their slots below it. -/
theorem WellFormed.instances (h : table.WellFormed strict)
    (hlayout : SlotWriter.layout table = .ok statics after) {info : ClassInfo}
    (hcls : table.kind? cls = some (.cls info)) :
    after.slot? cls = some ((table.signature.instanceFields cls).length : Int) ∧
      ∀ x modifiers, table.kind? x = some (.field cls modifiers) → modifiers.isStatic = false →
        ∃ d, after.slot? x = some d ∧ 0 ≤ d ∧ d < (table.signature.instanceFields cls).length := by
  obtain ⟨-, hplaced, -⟩ := h.placed_of_layout hlayout
  obtain ⟨hsize, hfields⟩ := table.signature.mem_classPlan_instance table.classes 0
    ((h.classes cls).2 ⟨info, hcls⟩)
  refine ⟨hplaced cls _ hsize (by simp [hcls]), fun x modifiers hkind hstatic => ?_⟩
  obtain ⟨d, hd, hbounds⟩ := hfields x (h.mem_fields hkind).2 (by rw [Signature.isStatic_of_field _ hkind, hstatic])
  exact ⟨d, hplaced x d hd (by simp [hkind]), hbounds⟩

end SymbolTable

end SmallJava
