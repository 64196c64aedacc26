import SmallJava.Proofs.Linking.Draft

namespace SmallJava

/-- The jumps between two addresses lead to places between them. -/
def Code.JumpsWithin (code : Code) (lo hi : Nat) : Prop :=
  ∀ (a : Nat) instr, lo ≤ a → a < hi → code.get? a = some instr → instr.isJump = true →
    ∃ t : Nat, lo ≤ t ∧ t ≤ hi ∧ instr.d = Address.toOperand t

/-- Methods have addresses of code that stands already. A call has the slot of a method that
    starts before it, or it is noted and its method has no slot or starts after it. -/
structure GenState.Linked (state : GenState) : Prop where
  slots : ∀ x d, state.table.isMethod x = true → state.table.slot? x = some d →
    ∃ n : Nat, n ≤ state.here ∧ d = Address.toOperand n
  calls : ∀ (a : Nat) instr, state.asm.code.get? a = some instr → instr.isCall = true →
    (∀ note ∈ state.asm.relocations, (note.address : Nat) ≠ a) →
      ∃ x n, instr.Calls state.table.signature x ∧ state.table.slot? x = some instr.d ∧
        n ≤ a ∧ instr.d = Address.toOperand n
  notes : ∀ note ∈ state.asm.relocations,
    (∃ instr, state.asm.code.get? note.address = some instr ∧
      instr.Calls state.table.signature note.target) ∧
    ∀ d, state.table.slot? note.target = some d →
      ∃ n : Nat, (note.address : Nat) < n ∧ n ≤ state.here ∧ d = Address.toOperand n

namespace Draft

/-- Jumps from the address `lo` on wait, or lead to places that there are already. -/
structure Wired (lo : Nat) (draft : Draft) : Prop where
  le : lo ≤ draft.state.here
  waiting : ∀ label ∈ draft.waiting, lo ≤ label.address ∧
    ∃ instr, draft.state.asm.code.get? label.address = some instr ∧ instr.isJump = true
  settled : ∀ (a : Nat) instr, lo ≤ a → draft.state.asm.code.get? a = some instr →
    instr.isJump = true → ⟨a⟩ ∈ draft.waiting ∨
      ∃ t : Nat, lo ≤ t ∧ t ≤ draft.state.here ∧ instr.d = Address.toOperand t

end Draft

@[simp]
theorem Instruction.isCall_withOperand (instr : Instruction) (d : Int) :
    isCall { instr with d } = instr.isCall := rfl

@[simp]
theorem Instruction.isJump_withOperand (instr : Instruction) (d : Int) :
    isJump { instr with d } = instr.isJump := rfl

theorem Instruction.isCall_of_isJump {instr : Instruction} (hjump : instr.isJump = true) :
    instr.isCall = false := by
  simp only [isJump, isCall, Bool.or_eq_true, beq_iff_eq] at hjump ⊢
  obtain hop | hop := hjump <;> simp [hop]

namespace GenState.Linked

variable {s : GenState} {asm : Assembler} {table : SymbolTable} {instr : Instruction}

theorem lt_here (h : s.Linked) {note : Relocation} (hmem : note ∈ s.asm.relocations) :
    (note.address : Nat) < s.here := by
  obtain ⟨⟨instr, hget, -⟩, -⟩ := h.notes note hmem
  exact Code.lt_size_of_get? hget

/-- Calls stay right when slots are assigned that are not those of methods, or that are the
    place of the next instruction. -/
theorem assign (h : s.Linked) {x : SymbolId} {d : Int} (hset : s.table.setSlot x d = .ok table)
    (hplace : s.table.isMethod x = true → d = Address.toOperand s.here) :
    GenState.Linked { s with table } := by
  have hsig := SymbolTable.signature_setSlot hset
  have hmethod : table.isMethod = s.table.isMethod := congrArg Signature.isMethod hsig
  have hslot : ∀ y e, s.table.isMethod y = true → table.slot? y = some e →
      s.table.slot? y = some e ∨ e = Address.toOperand s.here := by
    intro y e hy hget
    by_cases heq : y = x
    · subst heq
      obtain ⟨info, hkind⟩ := s.table.signature.isMethod_iff.1 hy
      have hin : (s.table.kind? y).isSome := Option.isSome_iff_exists.2 ⟨_, hkind⟩
      rw [SymbolTable.slot?_setSlot_self hset hin] at hget
      exact .inr ((Option.some.inj hget).symm.trans (hplace hy))
    · rw [SymbolTable.slot?_setSlot_of_ne hset heq] at hget
      exact .inl hget
  refine ⟨fun y e hy hget => ?_, fun a instr hget hcall hnotes => ?_, fun note hmem => ?_⟩
  · rw [hmethod] at hy
    obtain hold | hnew := hslot y e hy hget
    · exact h.slots y e hy hold
    · exact ⟨s.here, Nat.le_refl _, hnew⟩
  · obtain ⟨y, n, hcalls, hslot, hle, hd⟩ := h.calls a instr hget hcall hnotes
    exact ⟨y, n, hsig ▸ hcalls, SymbolTable.slot?_setSlot_of_some hset hslot, hle, hd⟩
  · obtain ⟨⟨instr, hget, hcalls⟩, hlate⟩ := h.notes note hmem
    refine ⟨⟨instr, hget, hsig ▸ hcalls⟩, fun e he => ?_⟩
    obtain hold | hnew := hslot note.target e hcalls.isMethod he
    · exact hlate e hold
    · exact ⟨s.here, h.lt_here hmem, Nat.le_refl _, hnew⟩

/-- One more instruction leaves the calls before it right. -/
theorem append (h : s.Linked) (hcode : asm.code = s.asm.code.push instr s.asm.line)
    (hnotes : asm.relocations = s.asm.relocations)
    (hnew : instr.isCall = true → ∃ x n, instr.Calls s.table.signature x ∧
      s.table.slot? x = some instr.d ∧ n ≤ s.here ∧ instr.d = Address.toOperand n) :
    GenState.Linked { s with asm } := by
  have hhere : GenState.here { s with asm } = s.here + 1 := by
    simp [GenState.here, Assembler.here, Code.nextAddress, hcode]
  refine ⟨fun x d hx hget => ?_, fun a found hget hcall hfree => ?_, fun note hmem => ?_⟩
  · obtain ⟨n, hle, hd⟩ := h.slots x d hx hget
    exact ⟨n, by omega, hd⟩
  · rw [hcode, Code.get?_push] at hget
    split at hget
    next heq =>
      obtain rfl := Option.some.inj hget
      obtain rfl : a = s.here := heq
      exact hnew hcall
    next =>
      rw [hnotes] at hfree
      exact h.calls a found hget hcall hfree
  · rw [hnotes] at hmem
    obtain ⟨⟨found, hget, hcalls⟩, hlate⟩ := h.notes note hmem
    refine ⟨⟨found, ?_, hcalls⟩, fun d hd => ?_⟩
    · rw [hcode, Code.get?_push]
      exact (if_neg (Nat.ne_of_lt (h.lt_here hmem))).trans hget
    · obtain ⟨n, hlt, hle, hn⟩ := hlate d hd
      exact ⟨n, hlt, by omega, hn⟩

/-- A call is noted as long as its method has no slot. -/
theorem callLater (h : s.Linked) {op : Opcode} {method : SymbolId}
    (hcalls : Instruction.Calls s.table.signature ⟨op, 0, .cb, Instruction.unresolved⟩ method)
    (hslot : s.table.slot? method = none) :
    GenState.Linked { s with asm := s.asm.callLater op method } := by
  have hhere : GenState.here { s with asm := s.asm.callLater op method } = s.here + 1 :=
    Assembler.here_emit ..
  have hcode : ∀ a : Nat, (s.asm.callLater op method).code.get? a =
      if a = s.here then some ⟨op, 0, .cb, Instruction.unresolved⟩ else s.asm.code.get? a :=
    fun a => Code.get?_push ..
  refine ⟨fun x d hx hget => ?_, fun a found hget hcall hfree => ?_, fun note hmem => ?_⟩
  · obtain ⟨n, hle, hd⟩ := h.slots x d hx hget
    exact ⟨n, by omega, hd⟩
  · have hne : a ≠ s.here := fun heq =>
      hfree ⟨s.asm.here, method⟩ (List.mem_append_right _ (.head _)) heq.symm
    rw [hcode, if_neg hne] at hget
    exact h.calls a found hget hcall fun note hmem => hfree note (List.mem_append_left _ hmem)
  · obtain hmem | hmem := List.mem_append.1 hmem
    · obtain ⟨⟨found, hget, hcalls⟩, hlate⟩ := h.notes note hmem
      refine ⟨⟨found, ?_, hcalls⟩, fun d hd => ?_⟩
      · rw [hcode, if_neg (Nat.ne_of_lt (h.lt_here hmem))]
        exact hget
      · obtain ⟨n, hlt, hle, hn⟩ := hlate d hd
        exact ⟨n, hlt, by omega, hn⟩
    · obtain rfl := List.mem_singleton.1 hmem
      refine ⟨⟨_, (hcode s.here).trans (if_pos rfl), hcalls⟩, fun d hd => ?_⟩
      rw [hslot] at hd
      cases hd

/-- Completing a jump changes no call. -/
theorem patch (h : s.Linked) {label : Label} (target : Nat)
    (hjump : ∀ instr, s.asm.code.get? label.address = some instr → instr.isJump = true) :
    GenState.Linked { s with asm := s.asm.patchTo label target } := by
  have hhere : GenState.here { s with asm := s.asm.patchTo label target } = s.here := by
    simp [GenState.here, Assembler.patchTo, Assembler.here, Code.nextAddress]
  have hcall : ∀ (a : Nat) found, found.isCall = true →
      ((s.asm.patchTo label target).code.get? a = some found ↔ s.asm.code.get? a = some found) := by
    intro a found hcall
    rw [Assembler.patchTo, Code.get?_patch]
    by_cases heq : a = label.address
    · subst heq
      refine ⟨fun hget => ?_, fun hget => ?_⟩
      · obtain ⟨old, hold, rfl⟩ := Option.map_eq_some_iff.1 hget
        rw [if_pos rfl, Instruction.isCall_withOperand] at hcall
        have hnone := Instruction.isCall_of_isJump (hjump old hold)
        exact absurd (hcall.symm.trans hnone) (by simp)
      · have hnone := Instruction.isCall_of_isJump (hjump found hget)
        exact absurd (hcall.symm.trans hnone) (by simp)
    · simp [heq]
  refine ⟨fun x d hx hget => ?_, fun a found hget hfound hfree => ?_, fun note hmem => ?_⟩
  · rw [hhere]
    exact h.slots x d hx hget
  · exact h.calls a found ((hcall a found hfound).1 hget) hfound hfree
  · obtain ⟨⟨found, hget, hcalls⟩, hlate⟩ := h.notes note hmem
    refine ⟨⟨found, (hcall _ _ hcalls.isCall).2 hget, hcalls⟩, fun d hd => ?_⟩
    rw [hhere]
    exact hlate d hd

end GenState.Linked

namespace Draft

variable {lo : Nat} {draft draft' : Draft}

namespace Wired

variable {s : GenState} {asm : Assembler} {instr : Instruction} {waiting waiting' : List Label}

/-- One more instruction, which waits if it is a jump without a target. -/
theorem append (h : Wired lo ⟨s, waiting⟩) (hcode : asm.code = s.asm.code.push instr s.asm.line)
    (hkept : ∀ label, label ∈ waiting → label ∈ waiting')
    (hwaiting : ∀ label ∈ waiting', label ∈ waiting ∨ label = ⟨s.here⟩ ∧ instr.isJump = true)
    (hnew : instr.isJump = true → ⟨s.here⟩ ∈ waiting' ∨
      ∃ t : Nat, lo ≤ t ∧ t ≤ s.here ∧ instr.d = Address.toOperand t) :
    Wired lo ⟨{ s with asm }, waiting'⟩ := by
  have hhere : GenState.here { s with asm } = s.here + 1 := by
    simp [GenState.here, Assembler.here, Code.nextAddress, hcode]
  have hle : lo ≤ s.here := h.le
  have hget : ∀ a < s.here, asm.code.get? a = s.asm.code.get? a := by
    intro a hlt
    rw [hcode, Code.get?_push]
    exact if_neg (Nat.ne_of_lt hlt)
  refine ⟨hhere ▸ Nat.le_succ_of_le hle, fun label hmem => ?_, fun a found hlo hfound hjump => ?_⟩
  · obtain hmem | ⟨rfl, hjump⟩ := hwaiting label hmem
    · obtain ⟨hlo, found, hfound, hjump⟩ := h.waiting label hmem
      exact ⟨hlo, found, (hget _ (Code.lt_size_of_get? hfound)).trans hfound, hjump⟩
    · exact ⟨hle, instr, by rw [hcode, Code.get?_push]; exact if_pos rfl, hjump⟩
  · have hfound : asm.code.get? a = some found := hfound
    rw [hcode, Code.get?_push] at hfound
    rw [hhere]
    split at hfound
    next heq =>
      obtain rfl := Option.some.inj hfound
      obtain rfl : a = s.here := heq
      obtain hmem | ⟨t, hlo, hhi, hd⟩ := hnew hjump
      · exact .inl hmem
      · exact .inr ⟨t, hlo, Nat.le_succ_of_le hhi, hd⟩
    next =>
      obtain hmem | ⟨t, hlo, hhi, hd⟩ := h.settled a found hlo hfound hjump
      · exact .inl (hkept _ hmem)
      · exact .inr ⟨t, hlo, Nat.le_succ_of_le hhi, hd⟩

/-- A completed jump no longer waits. -/
theorem patch {label : Label} (h : Wired lo ⟨s, label :: waiting⟩) {target : Nat}
    (hlo : lo ≤ target) (hhi : target ≤ s.here) :
    Wired lo ⟨{ s with asm := s.asm.patchTo label target }, waiting⟩ := by
  have hhere : GenState.here { s with asm := s.asm.patchTo label target } = s.here := by
    simp [GenState.here, Assembler.patchTo, Assembler.here, Code.nextAddress]
  have hcode : ∀ a : Nat, (s.asm.patchTo label target).code.get? a = (s.asm.code.get? a).map
      fun instr => if a = label.address then { instr with d := Address.toOperand target } else instr :=
    fun a => Code.get?_patch ..
  refine ⟨by rw [hhere]; exact h.le, fun other hmem => ?_, fun a found hle hget hjump => ?_⟩
  · obtain ⟨hle, found, hget, hjump⟩ := h.waiting other (List.mem_cons_of_mem _ hmem)
    refine ⟨hle, _, (hcode _).trans (by rw [hget]; rfl), ?_⟩
    split
    next => rwa [Instruction.isJump_withOperand]
    next => exact hjump
  · rw [hhere]
    rw [hcode] at hget
    obtain ⟨old, hold, rfl⟩ := Option.map_eq_some_iff.1 hget
    by_cases heq : a = label.address
    · rw [if_pos heq]
      exact .inr ⟨target, hlo, hhi, by simp only⟩
    · rw [if_neg heq] at hjump ⊢
      obtain hmem | hsettled := h.settled a old hle hold hjump
      · obtain hlabel | hmem := List.mem_cons.1 hmem
        · exact absurd (congrArg Label.address hlabel) heq
        · exact .inl hmem
      · exact .inr hsettled

end Wired

/-- A step leaves declarations and slots as they are, but for a slot that it assigns. -/
theorem Step.assigned (h : Step lo draft draft') :
    SymbolTable.Assigned draft.state.table draft'.state.table := by
  cases h with
  | keep _ _ htable =>
    rw [htable]
    exact .refl _
  | assign hset => exact .of_setSlot hset
  | _ => exact .refl _

/-- One step of code generation keeps all jumps within the code that there is. -/
theorem Step.wired (h : Step lo draft draft') (hwired : draft.Wired lo) : draft'.Wired lo := by
  cases h with
  | order hsame =>
    refine ⟨hwired.le, fun label hmem => hwired.waiting label ((hsame label).1 hmem),
      fun a instr hlo hget hjump => ?_⟩
    exact (hwired.settled a instr hlo hget hjump).imp_left (hsame _).2
  | @keep s s' _ hcode =>
    have hhere : s'.here = s.here := by simp [GenState.here, Assembler.here, hcode]
    refine ⟨hhere ▸ hwired.le, ?_, ?_⟩
    · simpa only [hcode] using hwired.waiting
    · simpa only [hcode, hhere] using hwired.settled
  | assign => exact ⟨hwired.le, hwired.waiting, hwired.settled⟩
  | emit instr hjump _ =>
    exact hwired.append rfl (fun _ => id) (fun _ => .inl) fun h => by simp [hjump] at h
  | jump instr hjump =>
    refine hwired.append rfl (fun _ => List.mem_cons_of_mem _) (fun label hmem => ?_)
      fun _ => .inl (.head _)
    exact (List.mem_cons.1 hmem).symm.imp_right fun heq => ⟨heq, hjump⟩
  | jumpTo hlo hhi =>
    exact hwired.append rfl (fun _ => id) (fun _ => .inl)
      fun _ => .inr ⟨_, hlo, hhi, by simp only⟩
  | patch label hlo hhi => exact hwired.patch hlo hhi
  | call instr hcalls =>
    refine hwired.append rfl (fun _ => id) (fun _ => .inl) fun hjump => ?_
    have hnone := Instruction.isCall_of_isJump hjump
    simp [hcalls.isCall] at hnone
  | callLater hcalls =>
    refine hwired.append rfl (fun _ => id) (fun _ => .inl) fun hjump => ?_
    have hnone := Instruction.isCall_of_isJump hjump
    simp [hcalls.isCall] at hnone

/-- The code before the address is left alone. -/
theorem Step.get?_of_lt (h : Step lo draft draft') (hwired : draft.Wired lo) {a : Nat}
    (hlt : a < lo) : draft'.state.asm.code.get? a = draft.state.asm.code.get? a := by
  have hne : a ≠ draft.state.here := Nat.ne_of_lt (Nat.lt_of_lt_of_le hlt hwired.le)
  cases h with
  | order | assign => rfl
  | keep hcode => rw [hcode]
  | emit | jump | jumpTo | call | callLater =>
    exact (Code.get?_push ..).trans (if_neg hne)
  | patch label =>
    have hle := (hwired.waiting label (.head _)).1
    have hother : a ≠ label.address := Nat.ne_of_lt (Nat.lt_of_lt_of_le hlt hle)
    simp [Assembler.patchTo, Code.get?_patch, hother]

/-- A step keeps calls right unless it takes the slot of a method. -/
theorem Step.linked (h : Step lo draft draft') (hwired : draft.Wired lo)
    (hlinked : draft.state.Linked)
    (hfixed : ∀ x, draft.state.table.isMethod x = true →
      draft'.state.table.slot? x = draft.state.table.slot? x) : draft'.state.Linked := by
  cases h with
  | order => exact hlinked
  | @keep s s' _ hcode hnotes htable =>
    have hhere : s'.here = s.here := by simp [GenState.here, Assembler.here, hcode]
    refine ⟨?_, ?_, ?_⟩
    · simpa only [htable, hhere] using hlinked.slots
    · simpa only [htable, hcode, hnotes] using hlinked.calls
    · simpa only [htable, hcode, hnotes, hhere] using hlinked.notes
  | @assign s _ x d table hset =>
    refine hlinked.assign hset fun hmethod => ?_
    obtain ⟨info, hkind⟩ := s.table.signature.isMethod_iff.1 hmethod
    have hsome := SymbolTable.slot?_setSlot_self hset (Option.isSome_iff_exists.2 ⟨_, hkind⟩)
    have hnone := (SymbolTable.setSlot_eq_ok_iff.1 hset).1
    have hsame := hfixed x hmethod
    rw [hnone] at hsame
    exact absurd (hsome.symm.trans hsame) (by simp)
  | emit instr _ hcall => exact hlinked.append rfl rfl fun h => by simp [hcall] at h
  | jump instr hjump =>
    refine hlinked.append rfl rfl fun hcall => ?_
    simp [Instruction.isCall_of_isJump hjump] at hcall
  | jumpTo => exact hlinked.append rfl rfl fun hcall => by cases hcall
  | patch label =>
    obtain ⟨-, found, hget, hjump⟩ := hwired.waiting label (.head _)
    refine hlinked.patch _ fun instr hinstr => ?_
    obtain rfl := Option.some.inj (hget.symm.trans hinstr)
    exact hjump
  | call instr hcalls hslot =>
    obtain ⟨n, hle, hd⟩ := hlinked.slots _ _ hcalls.isMethod hslot
    exact hlinked.append rfl rfl fun _ => ⟨_, n, hcalls, hslot, hle, hd⟩
  | callLater hcalls hslot => exact hlinked.callLater hcalls hslot

theorem Steps.assigned (h : Steps lo draft draft') :
    SymbolTable.Assigned draft.state.table draft'.state.table := by
  induction h with
  | refl => exact .refl _
  | tail _ hstep ih => exact ih.trans hstep.assigned

theorem Steps.wired (h : Steps lo draft draft') (hwired : draft.Wired lo) : draft'.Wired lo := by
  induction h with
  | refl => exact hwired
  | tail _ hstep ih => exact hstep.wired ih

theorem Steps.get?_of_lt (h : Steps lo draft draft') (hwired : draft.Wired lo) {a : Nat}
    (hlt : a < lo) : draft'.state.asm.code.get? a = draft.state.asm.code.get? a := by
  induction h with
  | refl => rfl
  | tail hsteps hstep ih => rw [hstep.get?_of_lt (Steps.wired hsteps hwired) hlt, ih]

/-- Steps keep calls right if each method has a slot before or has none after them. -/
theorem Steps.linked (h : Steps lo draft draft') (hwired : draft.Wired lo)
    (hlinked : draft.state.Linked)
    (hfixed : ∀ x, draft.state.table.isMethod x = true →
      draft.state.table.slot? x ≠ none ∨ draft'.state.table.slot? x = none) :
    draft'.state.Linked := by
  have hnone : ∀ {t t' : SymbolTable}, SymbolTable.Assigned t t' → ∀ {x}, t'.slot? x = none →
      t.slot? x = none := by
    intro t t' hassigned x hslot
    cases hold : t.slot? x with
    | none => rfl
    | some d =>
      rw [hassigned.slots x d hold] at hslot
      cases hslot
  induction h with
  | refl => exact hlinked
  | @tail mid last hsteps hstep ih =>
    have hassigned := Steps.assigned hsteps
    refine hstep.linked (Steps.wired hsteps hwired) (ih fun x hx => ?_) fun x hx => ?_
    · exact (hfixed x hx).imp_right (hnone hstep.assigned)
    · have hmethod : draft.state.table.isMethod x = true := by
        rw [← SymbolTable.signature_isMethod, ← hassigned.signature]
        exact hx
      obtain hsome | hlast := hfixed x hmethod
      · obtain ⟨d, hd⟩ := Option.ne_none_iff_exists'.1 hsome
        rw [hassigned.slots x d hd, hstep.assigned.slots x d (hassigned.slots x d hd)]
      · rw [hlast, hnone hstep.assigned hlast]

theorem Wired.start (s : GenState) : Wired s.here ⟨s, []⟩ := by
  refine ⟨Nat.le_refl _, nofun, fun a instr hlo hget _ => ?_⟩
  exact absurd (Code.lt_size_of_get? hget) (Nat.not_lt.2 hlo)

/-- Finished steps leave no jump of theirs without a target. -/
theorem Steps.jumpsWithin {s s' : GenState} (h : Steps s.here ⟨s, []⟩ ⟨s', []⟩) :
    s'.asm.code.JumpsWithin s.here s'.here := by
  intro a instr hlo _ hget hjump
  obtain hmem | hsettled := (h.wired (.start s)).settled a instr hlo hget hjump
  · cases hmem
  · exact hsettled

end Draft

end SmallJava
