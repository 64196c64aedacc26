import SmallJava.Proofs.Flow.Program
import SmallJava.Proofs.Linking.Generation
import SmallJava.Proofs.Linking.Linked

namespace SmallJava

open Gen

/-- Pieces of code for methods one after the other, without gaps. -/
inductive MethodDef.Spans (Span : MethodDef → Nat → Nat → Prop) : List MethodDef → Nat → Nat → Prop
  | nil {a} : Spans Span [] a a
  | cons {method rest a b c} (hmethod : Span method a b) (hrest : Spans Span rest b c) :
      Spans Span (method :: rest) a c

namespace MethodDef

theorem Spans.le {Span : MethodDef → Nat → Nat → Prop} {methods : List MethodDef} {a b : Nat}
    (h : Spans Span methods a b) (hle : ∀ method a b, Span method a b → a ≤ b) : a ≤ b := by
  induction h with
  | nil => exact Nat.le_refl _
  | cons hmethod _ ih => exact Nat.le_trans (hle _ _ _ hmethod) ih

/-- Pieces of code that are without gaps remain so under a weaker description of each. -/
theorem Spans.imp {Span Span' : MethodDef → Nat → Nat → Prop} {methods : List MethodDef}
    {a b : Nat} (h : Spans Span methods a b) (hle : ∀ method a b, Span method a b → a ≤ b)
    (himp : ∀ method x y, y ≤ b → Span method x y → Span' method x y) :
    Spans Span' methods a b := by
  induction h with
  | nil => exact .nil
  | cons hmethod hrest ih => exact .cons (himp _ _ _ (hrest.le hle) hmethod) (ih himp)

/-- Every address belongs to one of the methods. -/
theorem Spans.exists_of_lt {Span : MethodDef → Nat → Nat → Prop} {methods : List MethodDef}
    {a b x : Nat} (h : Spans Span methods a b) (hlo : a ≤ x) (hhi : x < b) :
    ∃ method c d, Span method c d ∧ c ≤ x ∧ x < d := by
  induction h with
  | nil => omega
  | @cons method rest a mid b hmethod _ ih =>
    by_cases hmid : x < mid
    · exact ⟨method, a, mid, hmethod, hlo, hmid⟩
    · exact ih (Nat.le_of_not_lt hmid) hhi

end MethodDef

/-- The code of a method under construction: it starts at the slot of the method, and its
    jumps stay in it. -/
structure MethodDef.Stands (state : GenState) (method : MethodDef) (a b : Nat) : Prop where
  le : a ≤ b
  slot : state.table.startOf method = some (Address.toOperand a)
  jumps : state.asm.code.JumpsWithin a b

/-- The state after some more code. -/
structure GenState.Continues (before after : GenState) : Prop where
  assigned : SymbolTable.Assigned before.table after.table
  le : before.here ≤ after.here
  kept : ∀ a < before.here, after.asm.code.get? a = before.asm.code.get? a

namespace GenState.Continues

variable {s s₁ s₂ : GenState}

theorem refl (s : GenState) : s.Continues s := ⟨.refl _, Nat.le_refl _, fun _ _ => rfl⟩

theorem trans (h₁ : s.Continues s₁) (h₂ : s₁.Continues s₂) : s.Continues s₂ where
  assigned := h₁.assigned.trans h₂.assigned
  le := Nat.le_trans h₁.le h₂.le
  kept := fun a hlt => (h₂.kept a (Nat.lt_of_lt_of_le hlt h₁.le)).trans (h₁.kept a hlt)

theorem of_steps (h : Draft.Steps s.here ⟨s, []⟩ ⟨s₁, []⟩) : s.Continues s₁ :=
  ⟨Draft.Steps.assigned h, Draft.Steps.here_le h, fun _ hlt =>
    Draft.Steps.get?_of_lt h (Draft.Wired.start s) hlt⟩

theorem isMethod (h : s.Continues s₁) (x : SymbolId) :
    s₁.table.isMethod x = s.table.isMethod x := by
  rw [← SymbolTable.signature_isMethod, h.assigned.signature]
  rfl

theorem slot?_eq_none (h : s.Continues s₁) {x : SymbolId} (hnone : s₁.table.slot? x = none) :
    s.table.slot? x = none := by
  cases hslot : s.table.slot? x with
  | none => rfl
  | some d =>
    rw [h.assigned.slots x d hslot] at hnone
    cases hnone

theorem startOf (h : s.Continues s₁) {method : MethodDef} {d : Int}
    (hstart : s.table.startOf method = some d) : s₁.table.startOf method = some d := by
  obtain ⟨x, hbound, hslot⟩ := Option.bind_eq_some_iff.1 hstart
  exact Option.bind_eq_some_iff.2 ⟨x, hbound, h.assigned.slots x d hslot⟩

/-- Finished methods stay as they are. -/
theorem stands (h : s.Continues s₁) {method : MethodDef} {a b : Nat} (hle : b ≤ s.here)
    (hstands : method.Stands s a b) : method.Stands s₁ a b where
  le := hstands.le
  slot := h.startOf hstands.slot
  jumps := by
    intro x instr hlo hhi hget hjump
    rw [h.kept x (Nat.lt_of_lt_of_le hhi hle)] at hget
    exact hstands.jumps x instr hlo hhi hget hjump

end GenState.Continues

namespace Gen

variable {s s' : GenState} {x : SymbolId} {rest : Gen Unit}

/-- What has a place gets its slot first, which is where its code starts. -/
private theorem place_steps (hrest : Wires [] rest fun _ => [])
    (hrun : (do setSlot x (← here).toOperand; rest) s = .ok () s') :
    ∃ table, s.table.setSlot x (Address.toOperand s.here) = .ok table ∧
      Draft.Steps s.here ⟨s, []⟩ ⟨{ s with table }, []⟩ ∧
      Draft.Steps s.here ⟨{ s with table }, []⟩ ⟨s', []⟩ := by
  obtain ⟨_, _, hhere, hrun⟩ := bind_eq_ok_iff.1 hrun
  obtain ⟨rfl, rfl⟩ := here_eq_ok_iff.1 hhere
  obtain ⟨_, s₁, hset, hrun⟩ := bind_eq_ok_iff.1 hrun
  have hfirst := wires_setSlot x _ hset []
  obtain ⟨table, htable, rfl⟩ := setSlot_eq_ok_iff.1 hset
  exact ⟨table, htable, hfirst, hrest hrun []⟩

theorem place_continues (hrest : Wires [] rest fun _ => [])
    (hrun : (do setSlot x (← here).toOperand; rest) s = .ok () s') :
    s.table.slot? x = none ∧ s.Continues s' := by
  obtain ⟨table, hset, hfirst, hrest⟩ := place_steps hrest hrun
  exact ⟨(SymbolTable.setSlot_eq_ok_iff.1 hset).1, .of_steps (hfirst.trans hrest)⟩

/-- Calls are right after the code of a method if methods have a slot before or none after
    it, but for the one that is placed. -/
theorem place_linked (hrest : Wires [] rest fun _ => [])
    (hrun : (do setSlot x (← here).toOperand; rest) s = .ok () s')
    (hmethod : s.table.isMethod x = true) (hlinked : s.Linked)
    (hfixed : ∀ y, s.table.isMethod y = true →
      s.table.slot? y ≠ none ∨ y = x ∨ s'.table.slot? y = none) :
    s'.Linked ∧ s'.table.slot? x = some (Address.toOperand s.here) ∧
      s'.asm.code.JumpsWithin s.here s'.here := by
  obtain ⟨table, hset, hfirst, hrest⟩ := place_steps hrest hrun
  have hplaced : GenState.Linked { s with table } := hlinked.assign hset fun _ => rfl
  obtain ⟨info, hkind⟩ := s.table.signature.isMethod_iff.1 hmethod
  have hslot : table.slot? x = some (Address.toOperand s.here) :=
    SymbolTable.slot?_setSlot_self hset (Option.isSome_iff_exists.2 ⟨_, hkind⟩)
  have hassigned : table.Assigned s'.table := Draft.Steps.assigned hrest
  refine ⟨Draft.Steps.linked hrest (.start { s with table }) hplaced fun y hy => ?_,
    hassigned.slots x _ hslot, Draft.Steps.jumpsWithin (hfirst.trans hrest)⟩
  have hsig := SymbolTable.signature_setSlot hset
  have hy : s.table.isMethod y = true := by
    rw [← SymbolTable.signature_isMethod, ← hsig]
    exact hy
  obtain hold | rfl | hnone := hfixed y hy
  · obtain ⟨d, hd⟩ := Option.ne_none_iff_exists'.1 hold
    exact .inl (by simp [SymbolTable.slot?_setSlot_of_some hset hd])
  · exact .inl (by simp [hslot])
  · exact .inr hnone

end Gen

namespace MethodDef

variable {options : Options} {method : MethodDef} {s s' : GenState}

/-- A method is placed where the source line has been recorded. -/
private theorem place_of_gen (hgen : method.gen options s = .ok () s') :
    ∃ x rest, method.binding = some x ∧ Wires [] rest (fun _ => []) ∧
      (do setSlot x (← here).toOperand; rest)
        { s with asm := s.asm.setLine method.span.line } = .ok () s' := by
  obtain ⟨x, _, hname, hgen⟩ := bind_eq_ok_iff.1 hgen
  obtain ⟨hbound, rfl⟩ := bound_eq_ok_iff.1 hname
  obtain ⟨_, s₁, hline, hgen⟩ := bind_eq_ok_iff.1 hgen
  obtain rfl := emit_eq_ok_iff.1 hline
  refine ⟨x, _, hbound, ?_, hgen⟩
  refine Wires.bind (wires_modify (fun _ => rfl) fun _ => rfl) fun _ => ?_
  refine (Stmt.genAll_wires _ method.body).bind fun _ => ?_
  split
  next => exact wires_returnWith 0 method.params.length
  next => exact wires_pure ()

theorem gen_continues (hgen : method.gen options s = .ok () s') : s.Continues s' := by
  obtain ⟨x, rest, -, hrest, hrun⟩ := place_of_gen hgen
  obtain ⟨-, hcontinues⟩ := place_continues hrest hrun
  exact ⟨hcontinues.assigned, hcontinues.le, hcontinues.kept⟩

theorem slot?_of_gen (hgen : method.gen options s = .ok () s') {x : SymbolId}
    (hbound : method.binding = some x) : s.table.slot? x = none := by
  obtain ⟨y, rest, hbound', hrest, hrun⟩ := place_of_gen hgen
  obtain rfl := Option.some.inj (hbound.symm.trans hbound')
  exact (place_continues hrest hrun).1

/-- The code of a method stands where it starts, and all calls are right. -/
theorem gen_linked (hgen : method.gen options s = .ok () s')
    (hmethod : ∀ x, method.binding = some x → s.table.isMethod x = true) (hlinked : s.Linked)
    (hfixed : ∀ x, s.table.isMethod x = true →
      s.table.slot? x ≠ none ∨ method.binding = some x ∨ s'.table.slot? x = none) :
    s'.Linked ∧ method.Stands s' s.here s'.here := by
  obtain ⟨x, rest, hbound, hrest, hrun⟩ := place_of_gen hgen
  obtain ⟨hlinked', hslot, hjumps⟩ := place_linked hrest hrun (hmethod x hbound)
    ⟨hlinked.slots, hlinked.calls, hlinked.notes⟩ fun y hy =>
      (hfixed y hy).imp_right (Or.imp_left fun hy => Option.some.inj (hy.symm.trans hbound))
  refine ⟨hlinked', (gen_continues hgen).le, ?_, hjumps⟩
  rw [SymbolTable.startOf, hbound]
  exact hslot

/-- Methods whose code is still to come have no slot yet. -/
theorem slot?_of_genAll {methods : List MethodDef} (hgen : genAll options methods s = .ok () s')
    (hmem : method ∈ methods) {x : SymbolId} (hbound : method.binding = some x) :
    s.table.slot? x = none := by
  induction methods generalizing s with
  | nil => cases hmem
  | cons first rest ih =>
    obtain ⟨_, s₁, hfirst, hrest⟩ := bind_eq_ok_iff.1 hgen
    obtain rfl | hmem := List.mem_cons.1 hmem
    · exact slot?_of_gen hfirst hbound
    · exact (gen_continues hfirst).slot?_eq_none (ih hrest hmem)

/-- The code of methods stands one after the other, and all calls are right, if there are no
    methods but those that are placed already and these. -/
theorem genAll_linked {methods : List MethodDef} (hgen : genAll options methods s = .ok () s')
    (hmethods : ∀ method ∈ methods, ∀ x, method.binding = some x → s.table.isMethod x = true)
    (hlinked : s.Linked)
    (hcover : ∀ x, s.table.isMethod x = true →
      s.table.slot? x ≠ none ∨ ∃ method ∈ methods, method.binding = some x) :
    s'.Linked ∧ s.Continues s' ∧ Spans (MethodDef.Stands s') methods s.here s'.here := by
  induction methods generalizing s with
  | nil =>
    obtain ⟨-, rfl⟩ := pure_eq_ok_iff.1 hgen
    exact ⟨hlinked, .refl s, .nil⟩
  | cons method rest ih =>
    obtain ⟨_, s₁, hfirst, hrest⟩ := bind_eq_ok_iff.1 hgen
    have hcontinues := gen_continues hfirst
    obtain ⟨hlinked₁, hstands⟩ := gen_linked hfirst (hmethods method (.head _)) hlinked
      fun x hx => by
        obtain hold | ⟨other, hmem, hbound⟩ := hcover x hx
        · exact .inl hold
        · obtain rfl | hmem := List.mem_cons.1 hmem
          · exact .inr (.inl hbound)
          · exact .inr (.inr (slot?_of_genAll hrest hmem hbound))
    have hcover₁ : ∀ x, s₁.table.isMethod x = true →
        s₁.table.slot? x ≠ none ∨ ∃ other ∈ rest, other.binding = some x := by
      intro x hx
      rw [hcontinues.isMethod] at hx
      obtain hold | ⟨other, hmem, hbound⟩ := hcover x hx
      · obtain ⟨d, hd⟩ := Option.ne_none_iff_exists'.1 hold
        exact .inl (by simp [hcontinues.assigned.slots x d hd])
      · obtain rfl | hmem := List.mem_cons.1 hmem
        · obtain ⟨y, hbound', hslot⟩ := Option.bind_eq_some_iff.1 hstands.slot
          obtain rfl := Option.some.inj (hbound.symm.trans hbound')
          exact .inl (by simp [hslot])
        · exact .inr ⟨other, hmem, hbound⟩
    obtain ⟨hlinked', hcontinues', hspans⟩ := ih hrest
      (fun other hmem x hbound => (hcontinues.isMethod x).trans
        (hmethods other (List.mem_cons_of_mem _ hmem) x hbound)) hlinked₁ hcover₁
    exact ⟨hlinked', hcontinues.trans hcontinues',
      .cons (hcontinues'.stands (Nat.le_refl _) hstands) hspans⟩

end MethodDef

end SmallJava
