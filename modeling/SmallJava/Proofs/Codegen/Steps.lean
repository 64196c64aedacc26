import SmallJava.Proofs.Codegen.Emission

namespace SmallJava

namespace Gen

variable {s s' : GenState}

@[simp]
theorem emit_eq_ok_iff {f : Assembler → Assembler} {u : Unit} :
    emit f s = .ok u s' ↔ { s with asm := f s.asm } = s' := modify_eq_ok_iff

@[simp]
theorem here_eq_ok_iff {a : Address} : here s = .ok a s' ↔ s.asm.here = a ∧ s = s' := by
  change EStateM.Result.ok _ _ = .ok _ _ ↔ _
  simp

@[simp]
theorem emitJump_eq_ok_iff {jump : Assembler → Assembler} {label : Label} :
    emitJump jump s = .ok label s' ↔
      (⟨s.here⟩ : Label) = label ∧ { s with asm := jump s.asm } = s' := by
  change EStateM.Result.ok _ _ = .ok _ _ ↔ _
  simp [Assembler.nextLabel, GenState.here]

@[simp]
theorem table_eq_ok_iff {t : SymbolTable} : table s = .ok t s' ↔ s.table = t ∧ s = s' := by
  change EStateM.Result.ok _ _ = .ok _ _ ↔ _
  simp

@[simp]
theorem ofExcept_eq_ok_iff {α : Type} {result : Except InternalError α} {value : α} :
    ofExcept result s = .ok value s' ↔ result = .ok value ∧ s = s' := by
  cases result with
  | ok found => simp [ofExcept]
  | error fault => simp [ofExcept]

/-- A slot is found if there is one, without an effect. -/
@[simp]
theorem expectSlot_eq_ok_iff {x : SymbolId} {d : Int} :
    expectSlot x s = .ok d s' ↔ s.table.slot? x = some d ∧ s = s' := by
  unfold expectSlot
  simp only [bind_eq_ok_iff, table_eq_ok_iff, ofExcept_eq_ok_iff, SymbolTable.expectSlot]
  constructor
  · rintro ⟨_, _, ⟨rfl, rfl⟩, h, rfl⟩
    split at h
    next hslot =>
      cases h
      exact ⟨hslot, rfl⟩
    next => cases h
  · rintro ⟨hslot, rfl⟩
    exact ⟨_, _, ⟨rfl, rfl⟩, by rw [hslot], rfl⟩

/-- A slot is set in the table and nowhere else. -/
@[simp]
theorem setSlot_eq_ok_iff {x : SymbolId} {d : Int} {u : Unit} :
    setSlot x d s = .ok u s' ↔
      ∃ t, s.table.setSlot x d = .ok t ∧ { s with table := t } = s' := by
  unfold setSlot
  constructor
  · intro h
    obtain ⟨_, _, htable, h⟩ := bind_eq_ok_iff.1 h
    obtain ⟨rfl, rfl⟩ := table_eq_ok_iff.1 htable
    obtain ⟨t, _, hset, h⟩ := bind_eq_ok_iff.1 h
    obtain ⟨hassigned, rfl⟩ := ofExcept_eq_ok_iff.1 hset
    exact ⟨t, hassigned, modify_eq_ok_iff.1 h⟩
  · rintro ⟨t, hset, h⟩
    refine bind_eq_ok_iff.2 ⟨_, _, table_eq_ok_iff.2 ⟨rfl, rfl⟩, ?_⟩
    exact bind_eq_ok_iff.2 ⟨t, s, ofExcept_eq_ok_iff.2 ⟨hset, rfl⟩, modify_eq_ok_iff.2 h⟩

@[simp]
theorem bound_eq_ok_iff {binding : Option SymbolId} {span : Span} {x : SymbolId} :
    bound binding span s = .ok x s' ↔ binding = some x ∧ s = s' := by
  cases binding with
  | none => simp [bound]
  | some found => simp [bound]

@[simp]
theorem constantAt_eq_ok_iff {site : Site} {expr : Expr} {value : Option Word} :
    constantAt site expr s = .ok value s' ↔ site.fold s.known expr = value ∧ s = s' := by
  change EStateM.Result.ok _ _ = .ok _ _ ↔ _
  simp [Site.fold, Site.relies]

@[simp]
theorem patchAll_eq_ok_iff {labels : List Label} {u : Unit} :
    patchAll labels s = .ok u s' ↔
      { s with asm := labels.foldl Assembler.patch s.asm } = s' := emit_eq_ok_iff

@[simp]
theorem patchAllTo_eq_ok_iff {labels : List Label} {target : Address} {u : Unit} :
    patchAllTo labels target s = .ok u s' ↔
      { s with asm := s.asm.patchAllTo labels target } = s' := emit_eq_ok_iff

/-- A variable or field has a place if its kind has a base and it has a slot. -/
@[simp]
theorem place_eq_ok_iff {x : SymbolId} {r : Register} {d : Int} :
    place x s = .ok (r, d) s' ↔
      (s.table.kind? x).bind (·.base?) = some r ∧ s.table.slot? x = some d ∧ s = s' := by
  unfold place
  rw [bind_of_ok (table_eq_ok_iff.2 ⟨rfl, rfl⟩)]
  cases hbase : (s.table.kind? x).bind (·.base?) with
  | none => simp
  | some base =>
    simp only [bind_eq_ok_iff, expectSlot_eq_ok_iff, pure_eq_ok_iff, Prod.mk.injEq, Option.some.injEq]
    constructor
    · rintro ⟨_, _, ⟨hslot, rfl⟩, ⟨rfl, rfl⟩, rfl⟩
      exact ⟨rfl, hslot, rfl⟩
    · rintro ⟨rfl, hslot, rfl⟩
      exact ⟨_, _, ⟨hslot, rfl⟩, ⟨rfl, rfl⟩, rfl⟩

end Gen

/-- A step of code generation that touches neither slots nor what is tracked. -/
structure Quiet (before after : GenState) : Prop where
  table : after.table = before.table
  known : after.known = before.known
  nextLocal : after.nextLocal = before.nextLocal

namespace Quiet

variable {s s₁ s₂ : GenState}

theorem refl (s : GenState) : Quiet s s := ⟨rfl, rfl, rfl⟩

theorem asm (s : GenState) (asm : Assembler) : Quiet s { s with asm } := ⟨rfl, rfl, rfl⟩

theorem trans (h₁ : Quiet s s₁) (h₂ : Quiet s₁ s₂) : Quiet s s₂ :=
  ⟨h₂.table.trans h₁.table, h₂.known.trans h₁.known, h₂.nextLocal.trans h₁.nextLocal⟩

end Quiet

namespace Emits

variable {s s' s₁ s₂ : GenState} {labels labels₁ labels₂ : List Label}
  {P Q : Image → (Label → Nat) → Prop}

/-- One instruction is appended. -/
theorem one (instr : Instruction)
    (hafter : { s with asm := s.asm.emit instr.op instr.n instr.r instr.d } = s') :
    s'.here = s.here + 1 ∧ Quiet s s' ∧ Emits s s' [] fun im _ => im.Holds s.here instr := by
  subst hafter
  exact ⟨Assembler.here_emit .., Quiet.asm s _, emit s instr.op instr.n instr.r instr.d⟩

/-- A jump without a target is appended. -/
theorem jump {label : Label} (hemit : Gen.emitJump (·.jump) s = .ok label s') :
    s'.here = s.here + 1 ∧ Quiet s s' ∧
      Emits s s' [label] fun im target => im.Holds s.here (.jump (target label)) := by
  obtain ⟨rfl, rfl⟩ := Gen.emitJump_eq_ok_iff.1 hemit
  exact ⟨Assembler.here_emit .., Quiet.asm s _, emitOpen s .jump 0 .cb Instruction.unresolved⟩

/-- A jump to a known place is appended. -/
theorem jumpTo {target : Nat} (hafter : { s with asm := s.asm.jumpTo target } = s') :
    s'.here = s.here + 1 ∧ Quiet s s' ∧ Emits s s' [] fun im _ => im.Holds s.here (.jump target) := by
  subst hafter
  exact ⟨Assembler.here_emit .., Quiet.asm s _, emit s .jump 0 .cb (Address.toOperand target)⟩

/-- A conditional jump without a target is appended. -/
theorem jumpIf {label : Label} (value : Int)
    (hemit : Gen.emitJump (·.jumpIf value) s = .ok label s') :
    s'.here = s.here + 1 ∧ Quiet s s' ∧
      Emits s s' [label] fun im target => im.Holds s.here (.jumpIf value (target label)) := by
  obtain ⟨rfl, rfl⟩ := Gen.emitJump_eq_ok_iff.1 hemit
  exact ⟨Assembler.here_emit .., Quiet.asm s _, emitOpen s .jumpif value .cb Instruction.unresolved⟩

/-- Two steps in sequence, after which the open jumps of the first are completed. -/
theorem patched (h₁ : Emits s s₁ labels₁ P) (h₂ : Emits s₁ s₂ labels₂ Q)
    (hpatch : Gen.patchAll labels₁ s₂ = .ok () s') :
    s'.here = s₂.here ∧ Quiet s₂ s' ∧ Emits s s' labels₂ fun im target =>
      ∃ target' : Label → Nat, (∀ label ∈ labels₁, target' label = s'.here) ∧
        (∀ label ∈ labels₂, target' label = target label) ∧ P im target' ∧ Q im target' := by
  obtain rfl := Gen.patchAll_eq_ok_iff.1 hpatch
  have hhere : GenState.here { s₂ with asm := labels₁.foldl Assembler.patch s₂.asm } = s₂.here := by
    simp [GenState.here, Assembler.foldl_patch_eq]
  rw [hhere]
  exact ⟨rfl, Quiet.asm s₂ _, h₁.patchFirst h₂⟩

/-- A step after which its open jumps are completed with the place of the next
instruction. -/
theorem closed (h : Emits s s₁ labels P) (hpatch : Gen.patchAll labels s₁ = .ok () s') :
    s'.here = s₁.here ∧ Quiet s₁ s' ∧ Emits s s' [] fun im _ =>
      ∃ target' : Label → Nat, (∀ label ∈ labels, target' label = s'.here) ∧ P im target' := by
  obtain rfl := Gen.patchAll_eq_ok_iff.1 hpatch
  have hhere : GenState.here { s₁ with asm := labels.foldl Assembler.patch s₁.asm } = s₁.here := by
    simp [GenState.here, Assembler.foldl_patch_eq]
  rw [hhere]
  exact ⟨rfl, Quiet.asm s₁ _, h.closeHere⟩

/-- A step after which its open jumps are completed with a place. -/
theorem closedAt (h : Emits s s₁ labels P) {place : Nat}
    (hpatch : Gen.patchAllTo labels place s₁ = .ok () s') :
    s'.here = s₁.here ∧ Quiet s₁ s' ∧ Emits s s' [] fun im _ =>
      ∃ target' : Label → Nat, (∀ label ∈ labels, target' label = place) ∧ P im target' := by
  obtain rfl := Gen.patchAllTo_eq_ok_iff.1 hpatch
  have hhere : GenState.here { s₁ with asm := s₁.asm.patchAllTo labels place } = s₁.here := by
    simp [GenState.here]
  exact ⟨hhere, Quiet.asm s₁ _, h.close place⟩

end Emits

end SmallJava
