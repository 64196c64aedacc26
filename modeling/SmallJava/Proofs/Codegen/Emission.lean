import SmallJava.Proofs.Codegen.Image
import SmallJava.Proofs.Outcome

namespace SmallJava

namespace Assembler

/-- The symbol whose call was noted at an address. -/
def noted? (asm : Assembler) (a : Nat) : Option SymbolId :=
  (asm.relocations.find? (·.address = a)).map (·.target)

/-- Calls are noted where code already stands, in the order of their addresses. -/
structure Noted (asm : Assembler) : Prop where
  below : ∀ (a : Nat) (target : SymbolId), ⟨a, target⟩ ∈ asm.relocations → a < asm.here
  sorted : asm.relocations.Pairwise fun note note' => (note.address : Nat) < note'.address

/-- The operand that the instruction at `a` has in the end: the slot of a noted
call, the target of an open jump, or the one it has. -/
def finalOperand (asm : Assembler) (slot? : SymbolId → Option Int)
    (targets : Nat → Option Nat) (a : Nat) (d : Int) : Int :=
  match asm.noted? a, targets a with
  | some method, _ => (slot? method).getD d
  | none, some target => Address.toOperand target
  | none, none => d

/-- No call is noted beyond the end of the code. -/
theorem noted?_here {asm : Assembler} (hnoted : asm.Noted) : asm.noted? asm.here = none := by
  unfold noted?
  rw [List.find?_eq_none.2]
  · rfl
  · intro note hmem
    have hlt : (note.address : Nat) < asm.here := hnoted.below note.address note.target hmem
    exact fun heq => Nat.ne_of_lt hlt (of_decide_eq_true heq)

@[simp]
theorem here_emit (asm : Assembler) (op : Opcode) (n : Int) (r : Register) (d : Int) :
    (asm.emit op n r d).here = asm.here + 1 := by
  simp [emit, here, Code.nextAddress]

/-- A noted call stands in the list of relocations. -/
theorem mem_of_noted? {asm : Assembler} {a : Nat} {method : SymbolId}
    (hnoted : asm.noted? a = some method) : ⟨a, method⟩ ∈ asm.relocations := by
  obtain ⟨⟨place, target⟩, hfind, rfl⟩ := Option.map_eq_some_iff.1 hnoted
  have hplace := List.find?_some hfind
  have hplace : place = a := by simpa using hplace
  subst hplace
  exact List.mem_of_find?_eq_some hfind

/-- A call whose target has no place yet is noted at the address where it is emitted. -/
theorem noted?_callLater (asm : Assembler) (op : Opcode) (target : SymbolId) (a : Nat) :
    (asm.callLater op target).noted? a =
      (asm.noted? a).or (if asm.here = a then some target else none) := by
  simp only [noted?, callLater, List.find?_append]
  cases asm.relocations.find? (·.address = a) with
  | some note => rfl
  | none => by_cases heq : asm.here = a <;> simp [heq]

/-- Completes jumps with one target. -/
def patchAllTo (asm : Assembler) (labels : List Label) (target : Address) : Assembler :=
  labels.foldl (fun asm label => asm.patchTo label target) asm

/-- Completing jumps does not move the end of the code. -/
@[simp]
theorem here_patchAllTo (asm : Assembler) (labels : List Label) (target : Address) :
    (asm.patchAllTo labels target).here = asm.here := by
  unfold patchAllTo
  induction labels generalizing asm with
  | nil => rfl
  | cons label rest ih =>
    rw [List.foldl_cons, ih]
    simp [patchTo, here, Code.nextAddress]

@[simp]
theorem relocations_patchAllTo (asm : Assembler) (labels : List Label) (target : Address) :
    (asm.patchAllTo labels target).relocations = asm.relocations := by
  unfold patchAllTo
  induction labels generalizing asm with
  | nil => rfl
  | cons label rest ih => rw [List.foldl_cons, ih]; rfl

/-- Completing jumps changes the operands of these jumps and nothing else. -/
theorem get?_patchAllTo (asm : Assembler) (labels : List Label) (target : Address) (a : Nat) :
    (asm.patchAllTo labels target).code.get? a = (asm.code.get? a).map fun instr =>
      if (⟨a⟩ : Label) ∈ labels then { instr with d := target.toOperand } else instr := by
  unfold patchAllTo
  induction labels generalizing asm with
  | nil => simp
  | cons label rest ih =>
    rw [List.foldl_cons, ih]
    simp only [patchTo, Code.get?_patch, Option.map_map]
    congr 1
    funext instr
    obtain ⟨place⟩ := label
    by_cases heq : a = place
    · subst heq
      by_cases hrest : (⟨a⟩ : Label) ∈ rest <;> simp [hrest]
    · have hne : (⟨a⟩ : Label) ≠ ⟨place⟩ := fun h => heq (congrArg Label.address h)
      simp [heq, hne]

/-- Jumps completed one after the other all lead to the same place. -/
theorem foldl_patch_eq (asm : Assembler) (labels : List Label) :
    labels.foldl Assembler.patch asm = asm.patchAllTo labels asm.here := by
  suffices hgeneral : ∀ (start : Assembler) (place : Address), start.here = place →
      labels.foldl Assembler.patch start = start.patchAllTo labels place from
    hgeneral asm asm.here rfl
  induction labels with
  | nil => simp [patchAllTo]
  | cons label rest ih =>
    rintro start place rfl
    have hnext : (start.patchTo label start.here).here = start.here := by
      simp [patchTo, here, Code.nextAddress]
    exact ih (start.patchTo label start.here) start.here hnext

end Assembler

namespace GenState

def here (state : GenState) : Nat := state.asm.here

/-- The program under construction becomes the finished one when the noted calls and
the jumps that are still open get their targets. -/
structure Realizes (im : Image) (targets : Nat → Option Nat) (state : GenState) : Prop where
  signature : state.table.signature = im.signature
  slots : ∀ x d, state.table.slot? x = some d → im.slot? x = some d
  placed : ∀ note ∈ state.asm.relocations, (im.slot? note.target).isSome
  code : ∀ a < state.here, im.fetch a = (state.asm.code.get? a).map fun instr =>
    { instr with d := state.asm.finalOperand im.slot? targets a instr.d }

end GenState

/-- The open jumps between two addresses and their targets. -/
def TargetsOn (targets : Nat → Option Nat) (lo hi : Nat) (labels : List Label)
    (target : Label → Nat) : Prop :=
  ∀ a, lo ≤ a → a < hi → targets a = if (⟨a⟩ : Label) ∈ labels then some (target ⟨a⟩) else none

/-- A step of code generation: it appends code of the given shape, in which the
jumps at `labels` are still open. -/
structure Emits (before after : GenState) (labels : List Label)
    (Shape : Image → (Label → Nat) → Prop) : Prop where
  noted : before.asm.Noted → after.asm.Noted
  le : before.here ≤ after.here
  within : ∀ a : Nat, (⟨a⟩ : Label) ∈ labels → before.here ≤ a ∧ a < after.here
  shape : before.asm.Noted → ∀ im targets target, after.Realizes im targets →
    TargetsOn targets before.here after.here labels target →
      Shape im target ∧ before.Realizes im targets

namespace Emits

variable {s s₁ s₂ : GenState} {labels labels₁ labels₂ : List Label}
  {P Q : Image → (Label → Nat) → Prop}

theorem weaken (h : Emits s s₁ labels P) (himp : ∀ im target, P im target → Q im target) :
    Emits s s₁ labels Q where
  noted := h.noted
  le := h.le
  within := h.within
  shape := fun hnoted im targets target hreal hon =>
    (h.shape hnoted im targets target hreal hon).imp_left (himp im target)

/-- Two steps in sequence: the open jumps of both are open. -/
theorem trans (h₁ : Emits s s₁ labels₁ P) (h₂ : Emits s₁ s₂ labels₂ Q) :
    Emits s s₂ (labels₁ ++ labels₂) fun im target => P im target ∧ Q im target where
  noted := fun hnoted => h₂.noted (h₁.noted hnoted)
  le := Nat.le_trans h₁.le h₂.le
  within := by
    intro a hmem
    have hle₁ := h₁.le
    have hle₂ := h₂.le
    obtain hmem | hmem := List.mem_append.1 hmem
    · have := h₁.within a hmem
      omega
    · have := h₂.within a hmem
      omega
  shape := by
    intro hnoted im targets target hreal hon
    have hsecond : TargetsOn targets s₁.here s₂.here labels₂ target := by
      intro a hlo hhi
      have hout : (⟨a⟩ : Label) ∉ labels₁ := by
        intro hmem
        have := (h₁.within a hmem).2
        omega
      rw [hon a (Nat.le_trans h₁.le hlo) hhi]
      simp [hout]
    obtain ⟨hQ, hreal₁⟩ := h₂.shape (h₁.noted hnoted) im targets target hreal hsecond
    have hfirst : TargetsOn targets s.here s₁.here labels₁ target := by
      intro a hlo hhi
      have hout : (⟨a⟩ : Label) ∉ labels₂ := by
        intro hmem
        have := (h₂.within a hmem).1
        omega
      rw [hon a hlo (Nat.lt_of_lt_of_le hhi h₂.le)]
      simp [hout]
    obtain ⟨hP, hreal₀⟩ := h₁.shape hnoted im targets target hreal₁ hfirst
    exact ⟨⟨hP, hQ⟩, hreal₀⟩

/-- Completing some of the open jumps with one target. -/
theorem patchTo (h : Emits s s₁ labels P) {patched : List Label} (hsub : patched ⊆ labels)
    (place : Nat) (hafter : s₂ = { s₁ with asm := s₁.asm.patchAllTo patched place }) :
    Emits s s₂ (labels.filter (· ∉ patched))
      fun im target => P im fun label => if label ∈ patched then place else target label := by
  have hhere : s₂.here = s₁.here := by simp [hafter, GenState.here]
  refine ⟨?_, ?_, ?_, ?_⟩
  · intro hnoted
    subst hafter
    refine ⟨?_, ?_⟩
    · intro a target hmem
      simp only [Assembler.relocations_patchAllTo, Assembler.here_patchAllTo] at hmem ⊢
      exact (h.noted hnoted).below a target hmem
    · simpa using (h.noted hnoted).sorted
  · rw [hhere]
    exact h.le
  · intro a hmem
    rw [hhere]
    exact h.within a (List.mem_filter.1 hmem).1
  · intro hnoted im targets target hreal hon
    -- before the completion, the completed jumps count as open with that target
    let targets' : Nat → Option Nat := fun a =>
      (targets a).or (if (⟨a⟩ : Label) ∈ patched then some place else none)
    have hreal₁ : s₁.Realizes im targets' := by
      refine ⟨?_, ?_, ?_, ?_⟩
      · simpa [hafter] using hreal.signature
      · simpa [hafter] using hreal.slots
      · simpa [hafter] using hreal.placed
      · intro a hlt
        have hsame : s₂.asm.noted? a = s₁.asm.noted? a := by simp [hafter, Assembler.noted?]
        have hcode : s₂.asm.code.get? a = (s₁.asm.code.get? a).map fun instr =>
            if (⟨a⟩ : Label) ∈ patched then
              { instr with d := Address.toOperand place } else instr := by
          rw [hafter]
          exact Assembler.get?_patchAllTo _ _ _ _
        rw [hreal.code a (by rwa [hhere]), hcode, Option.map_map]
        congr 1
        funext instr
        simp only [Function.comp_apply, Assembler.finalOperand, hsame, targets']
        cases hmethod : s₁.asm.noted? a with
        | some method =>
          have hmem : ⟨a, method⟩ ∈ s₂.asm.relocations := by
            simpa [hafter] using Assembler.mem_of_noted? hmethod
          obtain ⟨d, hd⟩ := Option.isSome_iff_exists.1 (hreal.placed _ hmem)
          by_cases hin : (⟨a⟩ : Label) ∈ patched <;> simp [hin, hd]
        | none =>
          by_cases hin : (⟨a⟩ : Label) ∈ patched
          · have hclosed : targets a = none := by
              rw [hon a (h.within a (hsub hin)).1 (by rwa [hhere]), if_neg]
              simp [hin]
            simp [hin, hclosed]
          · simp [hin]
    have hon₁ : TargetsOn targets' s.here s₁.here labels
        fun label => if label ∈ patched then place else target label := by
      intro a hlo hhi
      simp only [targets', hon a hlo (by rwa [hhere]), List.mem_filter, decide_eq_true_eq]
      by_cases hin : (⟨a⟩ : Label) ∈ patched
      · simp [hin, hsub hin]
      · by_cases hmem : (⟨a⟩ : Label) ∈ labels <;> simp [hin, hmem]
    obtain ⟨hP, hreal₀⟩ := h.shape hnoted im targets' _ hreal₁ hon₁
    refine ⟨hP, ?_⟩
    refine ⟨hreal₀.signature, hreal₀.slots, hreal₀.placed, ?_⟩
    intro a hlt
    have hout : (⟨a⟩ : Label) ∉ patched := by
      intro hin
      have := (h.within a (hsub hin)).1
      omega
    have hsame : targets' a = targets a := by simp [targets', hout]
    rw [hreal₀.code a hlt]
    simp only [Assembler.finalOperand, hsame]

/-- What the declarations say while code is generated holds in the finished program. -/
theorem look (s : GenState) :
    Emits s s [] fun im _ => s.table.signature = im.signature ∧
      ∀ x d, s.table.slot? x = some d → im.slot? x = some d where
  noted := id
  le := Nat.le_refl _
  within := by simp
  shape := fun _ _ _ _ hreal _ => ⟨⟨hreal.signature, hreal.slots⟩, hreal⟩

/-- A step that emits nothing, and at most assigns slots. -/
theorem silent (hcode : s₁.asm.code = s.asm.code) (hnotes : s₁.asm.relocations = s.asm.relocations)
    (hsig : s₁.table.signature = s.table.signature)
    (hslots : ∀ x d, s.table.slot? x = some d → s₁.table.slot? x = some d) :
    Emits s s₁ [] fun im _ => ∀ x d, s₁.table.slot? x = some d → im.slot? x = some d := by
  have hhere : s₁.here = s.here := by simp [GenState.here, Assembler.here, hcode]
  refine ⟨?_, Nat.le_of_eq hhere.symm, by simp, ?_⟩
  · intro hnoted
    refine ⟨?_, hnotes ▸ hnoted.sorted⟩
    intro a target hmem
    rw [hnotes] at hmem
    exact Nat.lt_of_lt_of_eq (hnoted.below a target hmem) hhere.symm
  · intro _ im targets target hreal _
    refine ⟨hreal.slots, hsig ▸ hreal.signature, fun x d h => hreal.slots x d (hslots x d h),
      hnotes ▸ hreal.placed, ?_⟩
    intro a hlt
    have hnoted : s₁.asm.noted? a = s.asm.noted? a := by simp only [Assembler.noted?, hnotes]
    rw [hreal.code a (by rwa [hhere]), hcode]
    simp only [Assembler.finalOperand, hnoted]

/-- A step that changes neither code nor declarations. -/
theorem still (s s₁ : GenState) (hcode : s₁.asm.code = s.asm.code)
    (hnotes : s₁.asm.relocations = s.asm.relocations) (htable : s₁.table = s.table) :
    Emits s s₁ [] fun _ _ => True :=
  (silent hcode hnotes (by rw [htable]) (fun x d h => by rwa [htable])).weaken
    fun _ _ _ => trivial

/-- What one appended instruction does to the finished program. -/
private theorem realizes_of_append (s : GenState) (asm : Assembler) (instr : Instruction)
    (line : Nat) {im : Image} {targets : Nat → Option Nat}
    (hcode : asm.code = s.asm.code.push instr line)
    (hnotes : s.asm.relocations ⊆ asm.relocations)
    (hsame : ∀ a < s.here, asm.noted? a = s.asm.noted? a)
    (hreal : GenState.Realizes im targets { s with asm }) :
    s.Realizes im targets ∧
      im.Holds s.here { instr with d := asm.finalOperand im.slot? targets s.here instr.d } := by
  have hhere : GenState.here { s with asm } = s.here + 1 := by
    simp [GenState.here, Assembler.here, Code.nextAddress, hcode]
  refine ⟨⟨hreal.signature, hreal.slots, fun note hmem => hreal.placed note (hnotes hmem), ?_⟩, ?_⟩
  · intro a hlt
    have hne : a ≠ s.asm.code.nextAddress := Nat.ne_of_lt hlt
    rw [hreal.code a (by omega), hcode, Code.get?_push, if_neg hne]
    simp only [Assembler.finalOperand, hsame a hlt]
  · have hget : asm.code.get? s.here = some instr := by
      rw [hcode, Code.get?_push, if_pos]
      rfl
    rw [Image.Holds, hreal.code s.here (by omega), hget]
    rfl

/-- An instruction that is complete when it is emitted. -/
theorem emit (s : GenState) (op : Opcode) (n : Int) (r : Register) (d : Int) :
    Emits s { s with asm := s.asm.emit op n r d } [] fun im _ => im.Holds s.here ⟨op, n, r, d⟩ := by
  refine ⟨?_, ?_, by simp, ?_⟩
  · intro hnoted
    refine ⟨?_, hnoted.sorted⟩
    intro a target hmem
    have hlt : a < s.here := hnoted.below a target hmem
    change a < (s.asm.emit op n r d).here
    rw [Assembler.here_emit]
    exact Nat.lt_succ_of_lt hlt
  · simp [GenState.here]
  · intro hnoted im targets target hreal hon
    obtain ⟨hreal₀, hholds⟩ := realizes_of_append s (s.asm.emit op n r d) ⟨op, n, r, d⟩
      s.asm.line rfl (List.Subset.refl _) (fun _ _ => rfl) hreal
    have hclosed : targets s.here = none := by
      rw [hon s.here (Nat.le_refl _) (by simp [GenState.here])]
      simp
    have hplain : (s.asm.emit op n r d).noted? s.here = none := Assembler.noted?_here hnoted
    simp only [Assembler.finalOperand, hplain, hclosed] at hholds
    exact ⟨hholds, hreal₀⟩

/-- A jump that is open when it is emitted. -/
theorem emitOpen (s : GenState) (op : Opcode) (n : Int) (r : Register) (d : Int) :
    Emits s { s with asm := s.asm.emit op n r d } [⟨s.here⟩] fun im target =>
      im.Holds s.here ⟨op, n, r, Address.toOperand (target ⟨s.here⟩)⟩ := by
  refine ⟨(emit s op n r d).noted, (emit s op n r d).le, ?_, ?_⟩
  · intro a hmem
    obtain rfl : a = s.here := by simpa using hmem
    simp [GenState.here]
  · intro hnoted im targets target hreal hon
    obtain ⟨hreal₀, hholds⟩ := realizes_of_append s (s.asm.emit op n r d) ⟨op, n, r, d⟩
      s.asm.line rfl (List.Subset.refl _) (fun _ _ => rfl) hreal
    have hopen : targets s.here = some (target ⟨s.here⟩) := by
      rw [hon s.here (Nat.le_refl _) (by simp [GenState.here])]
      simp
    have hplain : (s.asm.emit op n r d).noted? s.here = none := Assembler.noted?_here hnoted
    simp only [Assembler.finalOperand, hplain, hopen] at hholds
    exact ⟨hholds, hreal₀⟩

/-- A call that is noted when it is emitted. -/
theorem callLater (s : GenState) (op : Opcode) (method : SymbolId) :
    Emits s { s with asm := s.asm.callLater op method } [] fun im _ =>
      ∃ entry, im.slot? method = some entry ∧ im.Holds s.here ⟨op, 0, .cb, entry⟩ := by
  have hhere : (s.asm.callLater op method).here = s.asm.here + 1 :=
    Assembler.here_emit s.asm op 0 .cb Instruction.unresolved
  refine ⟨?_, ?_, by simp, ?_⟩
  · intro hnoted
    refine ⟨?_, ?_⟩
    · intro a target hmem
      change a < (s.asm.callLater op method).here
      rw [hhere]
      obtain hmem | hmem := List.mem_append.1 hmem
      · exact Nat.lt_succ_of_lt (hnoted.below a target hmem)
      · obtain ⟨rfl, -⟩ := Relocation.mk.inj (List.mem_singleton.1 hmem)
        exact Nat.lt_succ_self _
    · refine List.pairwise_append.2 ⟨hnoted.sorted, by simp, ?_⟩
      intro note hmem note' hmem'
      rw [List.mem_singleton.1 hmem']
      exact hnoted.below note.address note.target hmem
  · change s.asm.here ≤ (s.asm.callLater op method).here
    rw [hhere]
    exact Nat.le_succ _
  · intro hnoted im targets target hreal hon
    have hsame : ∀ a < s.here, (s.asm.callLater op method).noted? a = s.asm.noted? a := by
      intro a hlt
      have hne : s.asm.here ≠ a := Nat.ne_of_gt hlt
      simp [Assembler.noted?_callLater, hne]
    obtain ⟨hreal₀, hholds⟩ := realizes_of_append s (s.asm.callLater op method)
      ⟨op, 0, .cb, Instruction.unresolved⟩ s.asm.line rfl (List.subset_append_left _ _) hsame hreal
    obtain ⟨entry, hentry⟩ := Option.isSome_iff_exists.1 <|
      hreal.placed ⟨s.here, method⟩ (List.mem_append_right _ (List.mem_singleton.2 rfl))
    have hnow : (s.asm.callLater op method).noted? s.here = some method := by
      have hnone : s.asm.noted? s.here = none := Assembler.noted?_here hnoted
      rw [Assembler.noted?_callLater, hnone]
      simp [GenState.here]
    simp only [Assembler.finalOperand, hnow, hentry, Option.getD_some] at hholds
    exact ⟨⟨entry, hentry, hholds⟩, hreal₀⟩

/-- Completing some of the open jumps with the place of the next instruction. -/
theorem patchAll (h : Emits s s₁ labels P) {patched : List Label} (hsub : patched ⊆ labels) :
    Emits s { s₁ with asm := patched.foldl Assembler.patch s₁.asm } (labels.filter (· ∉ patched))
      fun im target => P im fun label => if label ∈ patched then s₁.here else target label := by
  apply h.patchTo hsub s₁.here
  rw [Assembler.foldl_patch_eq]
  rfl

/-- Jumps of a later step are none of an earlier one. -/
theorem disjoint (h₁ : Emits s s₁ labels₁ P) (h₂ : Emits s₁ s₂ labels₂ Q) :
    ∀ label ∈ labels₂, label ∉ labels₁ := by
  rintro ⟨a⟩ hmem₂ hmem₁
  have := (h₁.within a hmem₁).2
  have := (h₂.within a hmem₂).1
  omega

/-- Two steps in sequence, after which the open jumps of the first are completed. -/
theorem patchFirst (h₁ : Emits s s₁ labels₁ P) (h₂ : Emits s₁ s₂ labels₂ Q) :
    Emits s { s₂ with asm := labels₁.foldl Assembler.patch s₂.asm } labels₂ fun im target =>
      ∃ target' : Label → Nat, (∀ label ∈ labels₁, target' label = s₂.here) ∧
        (∀ label ∈ labels₂, target' label = target label) ∧ P im target' ∧ Q im target' := by
  have hdisjoint := h₁.disjoint h₂
  have hrest : (labels₁ ++ labels₂).filter (· ∉ labels₁) = labels₂ := by
    rw [List.filter_append, List.filter_eq_nil_iff.2 (by simp), List.nil_append,
      List.filter_eq_self.2 (by simpa using hdisjoint)]
  have h := (h₁.trans h₂).patchAll (List.subset_append_left labels₁ labels₂)
  rw [hrest] at h
  refine h.weaken fun im target hshape => ⟨_, ?_, ?_, hshape⟩
  · intro label hmem
    exact if_pos hmem
  · intro label hmem
    exact if_neg (hdisjoint label hmem)

/-- A step after which its open jumps are completed with a place. -/
theorem close (h : Emits s s₁ labels P) (place : Nat) :
    Emits s { s₁ with asm := s₁.asm.patchAllTo labels place } [] fun im _ =>
      ∃ target' : Label → Nat, (∀ label ∈ labels, target' label = place) ∧ P im target' := by
  have hclosed := h.patchTo (List.Subset.refl labels) place rfl
  rw [List.filter_eq_nil_iff.2 (by simp)] at hclosed
  exact hclosed.weaken fun im target hshape => ⟨_, fun label hmem => if_pos hmem, hshape⟩

/-- A step after which its open jumps are completed with the place of the next
instruction. -/
theorem closeHere (h : Emits s s₁ labels P) :
    Emits s { s₁ with asm := labels.foldl Assembler.patch s₁.asm } [] fun im _ =>
      ∃ target' : Label → Nat, (∀ label ∈ labels, target' label = s₁.here) ∧ P im target' := by
  rw [Assembler.foldl_patch_eq]
  exact h.close s₁.here

end Emits

end SmallJava
