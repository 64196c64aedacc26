import Mathlib.Logic.Relation
import SmallJava.Proofs.Codegen.Steps

namespace SmallJava

namespace Instruction

def isJump (instr : Instruction) : Bool := instr.op == .jump || instr.op == .jumpif

/-- Whether the instruction calls code in the code store, and no primitive. -/
def isCall (instr : Instruction) : Bool :=
  (instr.op == .call || instr.op == .calli) && instr.r == .cb

/-- The instruction calls the method, with an object exactly if the method is not static. -/
structure Calls (sig : Signature) (instr : Instruction) (method : SymbolId) : Prop where
  isCall : instr.isCall = true
  isMethod : sig.isMethod method = true
  static : instr.op = .call ↔ sig.isStatic method = true

theorem Calls.withOperand {sig : Signature} {instr : Instruction} {method : SymbolId}
    (h : instr.Calls sig method) (d : Int) : Calls sig { instr with d } method :=
  ⟨h.isCall, h.isMethod, h.static⟩

end Instruction

/-- Code under construction, with the jumps that wait for their targets. -/
structure Draft where
  state : GenState
  waiting : List Label

namespace Draft

/-- What code generation does at a time. No jump leads to before the address `lo`. -/
inductive Step (lo : Nat) : Draft → Draft → Prop
  | order {s waiting waiting'} (hsame : ∀ label, label ∈ waiting' ↔ label ∈ waiting) :
      Step lo ⟨s, waiting⟩ ⟨s, waiting'⟩
  | keep {s s' waiting} (hcode : s'.asm.code = s.asm.code)
      (hnotes : s'.asm.relocations = s.asm.relocations) (htable : s'.table = s.table) :
      Step lo ⟨s, waiting⟩ ⟨s', waiting⟩
  | assign {s waiting x d table} (hset : s.table.setSlot x d = .ok table) :
      Step lo ⟨s, waiting⟩ ⟨{ s with table }, waiting⟩
  | emit {s waiting} (instr : Instruction) (hjump : instr.isJump = false)
      (hcall : instr.isCall = false) :
      Step lo ⟨s, waiting⟩
        ⟨{ s with asm := s.asm.emit instr.op instr.n instr.r instr.d }, waiting⟩
  | jump {s waiting} (instr : Instruction) (hjump : instr.isJump = true) :
      Step lo ⟨s, waiting⟩
        ⟨{ s with asm := s.asm.emit instr.op instr.n instr.r instr.d }, ⟨s.here⟩ :: waiting⟩
  | jumpTo {s waiting} {target : Nat} (hlo : lo ≤ target) (hhi : target ≤ s.here) :
      Step lo ⟨s, waiting⟩ ⟨{ s with asm := s.asm.jumpTo target }, waiting⟩
  | patch {s waiting} (label : Label) {target : Nat} (hlo : lo ≤ target) (hhi : target ≤ s.here) :
      Step lo ⟨s, label :: waiting⟩ ⟨{ s with asm := s.asm.patchTo label target }, waiting⟩
  | call {s waiting} (instr : Instruction) {method} (hcalls : instr.Calls s.table.signature method)
      (hslot : s.table.slot? method = some instr.d) :
      Step lo ⟨s, waiting⟩
        ⟨{ s with asm := s.asm.emit instr.op instr.n instr.r instr.d }, waiting⟩
  | callLater {s waiting op method}
      (hcalls : Instruction.Calls s.table.signature ⟨op, 0, .cb, Instruction.unresolved⟩ method)
      (hslot : s.table.slot? method = none) :
      Step lo ⟨s, waiting⟩ ⟨{ s with asm := s.asm.callLater op method }, waiting⟩

abbrev Steps (lo : Nat) : Draft → Draft → Prop := Relation.ReflTransGen (Step lo)

variable {lo lo' : Nat} {draft draft' : Draft}

/-- Code generation never goes back. -/
theorem Step.here_le (h : Step lo draft draft') : draft.state.here ≤ draft'.state.here := by
  cases h with
  | keep hcode => simp [GenState.here, Assembler.here, hcode]
  | patch => simp [GenState.here, Assembler.patchTo, Assembler.here, Code.nextAddress]
  | callLater => simp [GenState.here, Assembler.callLater, Assembler.here, Code.nextAddress,
      Assembler.emit]
  | jumpTo => simp [GenState.here, Assembler.jumpTo]
  | emit | jump | call => simp [GenState.here]
  | order | assign => exact Nat.le_refl _

/-- Jumps that do not lead to before an address do not lead to before a lower one either. -/
theorem Step.widen (h : Step lo draft draft') (hle : lo' ≤ lo) : Step lo' draft draft' := by
  cases h with
  | order hsame => exact .order hsame
  | keep hcode hnotes htable => exact .keep hcode hnotes htable
  | assign hset => exact .assign hset
  | emit instr hjump hcall => exact .emit instr hjump hcall
  | jump instr hjump => exact .jump instr hjump
  | jumpTo hlo hhi => exact .jumpTo (Nat.le_trans hle hlo) hhi
  | patch label hlo hhi => exact .patch label (Nat.le_trans hle hlo) hhi
  | call instr hcalls hslot => exact .call instr hcalls hslot
  | callLater hcalls hslot => exact .callLater hcalls hslot

theorem Steps.here_le (h : Steps lo draft draft') : draft.state.here ≤ draft'.state.here := by
  induction h with
  | refl => exact Nat.le_refl _
  | tail _ hstep ih => exact Nat.le_trans ih hstep.here_le

theorem Steps.widen (h : Steps lo draft draft') (hle : lo' ≤ lo) : Steps lo' draft draft' :=
  Relation.ReflTransGen.mono (fun _ _ hstep => Step.widen hstep hle) _ _ h

/-- Jumps are completed one after the other. -/
theorem Steps.patchAllTo (state : GenState) (labels waiting : List Label) {target : Nat}
    (hlo : lo ≤ target) (hhi : target ≤ state.here) :
    Steps lo ⟨state, labels ++ waiting⟩
      ⟨{ state with asm := state.asm.patchAllTo labels target }, waiting⟩ := by
  induction labels generalizing state with
  | nil => exact .refl
  | cons label rest ih =>
    have hfirst : Step lo ⟨state, label :: (rest ++ waiting)⟩ _ := .patch label hlo hhi
    exact .head hfirst (ih { state with asm := state.asm.patchTo label target }
      (Nat.le_trans hhi hfirst.here_le))

end Draft

namespace Gen

open Draft

variable {α β : Type} {pre pre' : List Label} {post : α → List Label}

/-- The action takes the waiting jumps `pre` and leaves those of `post` waiting. It leaves
    all others alone, and its jumps lead to no place before its own code. -/
def Wires (pre : List Label) (code : Gen α) (post : α → List Label) : Prop :=
  ∀ ⦃s s' : GenState⦄ ⦃a : α⦄, code s = .ok a s' → ∀ waiting,
    Steps s.here ⟨s, pre ++ waiting⟩ ⟨s', post a ++ waiting⟩

/-- Of actions in a row the second takes the jumps that the first leaves waiting. -/
theorem Wires.bind {code : Gen α} {next : α → Gen β} {mid : α → List Label}
    {post : β → List Label} (hcode : Wires pre code mid)
    (hnext : ∀ a, Wires (mid a) (next a) post) : Wires pre (code >>= next) post := by
  intro s s' b hrun waiting
  obtain ⟨a, s₁, hfirst, hsecond⟩ := bind_eq_ok_iff.1 hrun
  have hsteps := hcode hfirst waiting
  exact hsteps.trans ((hnext a hsecond waiting).widen hsteps.here_le)

theorem Wires.map {code : Gen α} {f : α → β} {post : β → List Label}
    (hcode : Wires pre code fun a => post (f a)) : Wires pre (f <$> code) post := by
  intro s s' b hrun waiting
  obtain ⟨a, ha, rfl⟩ := map_eq_ok_iff.1 hrun
  exact hcode ha waiting

theorem wires_yield (post : α → List Label) (a : α) : Wires (post a) (pure a) post := by
  intro s s' b hrun waiting
  obtain ⟨rfl, rfl⟩ := pure_eq_ok_iff.1 hrun
  exact .refl

theorem wires_pure (a : α) : Wires [] (pure a) fun _ => [] :=
  wires_yield (fun _ => []) a

theorem wires_throw (fault : InternalError) : Wires pre (throw fault : Gen α) post :=
  fun _ _ _ hrun => absurd hrun throw_ne_ok

/-- Other jumps may wait meanwhile. -/
theorem Wires.frame {code : Gen α} (hcode : Wires pre code post) (others : List Label) :
    Wires (pre ++ others) code fun a => post a ++ others := by
  intro s s' a hrun waiting
  simpa only [List.append_assoc] using hcode hrun (others ++ waiting)

/-- The order of the waiting jumps does not matter. -/
theorem Wires.reorder {code : Gen α} (hcode : Wires pre' code post)
    (hsame : ∀ label, label ∈ pre' ↔ label ∈ pre) : Wires pre code post := by
  intro s s' a hrun waiting
  refine .head (.order fun label => ?_) (hcode hrun waiting)
  rw [List.mem_append, List.mem_append, hsame]

/-- An action that only looks. -/
theorem wires_of_look {code : Gen α} (hlook : ∀ ⦃s s' a⦄, code s = .ok a s' → s = s') :
    Wires [] code fun _ => [] := by
  intro s s' a hrun waiting
  rw [hlook hrun]

/-- An action that changes nothing but what is kept track of. -/
theorem wires_modify {f : GenState → GenState} (hasm : ∀ s, (f s).asm = s.asm)
    (htable : ∀ s, (f s).table = s.table) : Wires [] (modify f : Gen PUnit) fun _ => [] := by
  intro s s' u hrun waiting
  obtain rfl := modify_eq_ok_iff.1 hrun
  exact .single (.keep (by rw [hasm]) (by rw [hasm]) (htable s))

theorem wires_setLine (line : Nat) : Wires [] (emit (·.setLine line)) fun _ => [] := by
  intro s s' u hrun waiting
  obtain rfl := emit_eq_ok_iff.1 hrun
  exact .single (.keep rfl rfl rfl)

theorem wires_setSlot (x : SymbolId) (d : Int) : Wires [] (setSlot x d) fun _ => [] := by
  intro s s' u hrun waiting
  obtain ⟨table, hset, rfl⟩ := setSlot_eq_ok_iff.1 hrun
  exact .single (.assign hset)

theorem wires_bound (binding : Option SymbolId) (span : Span) :
    Wires [] (bound binding span) fun _ => [] :=
  wires_of_look fun _ _ _ hrun => (bound_eq_ok_iff.1 hrun).2

theorem wires_table : Wires [] table fun _ => [] :=
  wires_of_look fun _ _ _ hrun => (table_eq_ok_iff.1 hrun).2

theorem wires_get : Wires [] (get : Gen GenState) fun _ => [] :=
  wires_of_look fun _ _ _ hrun => (get_eq_ok_iff.1 hrun).2

theorem wires_expectSlot (x : SymbolId) : Wires [] (expectSlot x) fun _ => [] :=
  wires_of_look fun _ _ _ hrun => (expectSlot_eq_ok_iff.1 hrun).2

theorem wires_constantAt (site : Site) (expr : Expr) :
    Wires [] (constantAt site expr) fun _ => [] :=
  wires_of_look fun _ _ _ hrun => (constantAt_eq_ok_iff.1 hrun).2

/-- An instruction that neither jumps nor calls a method. -/
theorem wires_emit {f : Assembler → Assembler} (instr : Instruction)
    (hf : ∀ asm, f asm = asm.emit instr.op instr.n instr.r instr.d)
    (hjump : instr.isJump = false) (hcall : instr.isCall = false) :
    Wires [] (emit f) fun _ => [] := by
  intro s s' u hrun waiting
  obtain rfl := emit_eq_ok_iff.1 hrun
  rw [hf]
  exact .single (.emit instr hjump hcall)

theorem wires_primitive (primitive : Primitive) :
    Wires [] (emit (·.primitive primitive)) fun _ => [] :=
  wires_emit (.primitive primitive) (fun _ => rfl) rfl rfl

theorem wires_literal (value : Int) : Wires [] (emit (·.literal value)) fun _ => [] :=
  wires_emit (.literal value) (fun _ => rfl) rfl rfl

theorem wires_load (r : Register) (d : Int) : Wires [] (emit (·.load r d)) fun _ => [] :=
  wires_emit (.load r d) (fun _ => rfl) rfl rfl

theorem wires_loadAddress (r : Register) (d : Int) :
    Wires [] (emit (·.loadAddress r d)) fun _ => [] :=
  wires_emit (.loadAddress r d) (fun _ => rfl) rfl rfl

theorem wires_store (r : Register) (d : Int) : Wires [] (emit (·.store r d)) fun _ => [] :=
  wires_emit (.store r d) (fun _ => rfl) rfl rfl

theorem wires_returnWith (results args : Int) :
    Wires [] (emit (·.returnWith results args)) fun _ => [] :=
  wires_emit (.returnWith results args) (fun _ => rfl) rfl rfl

/-- An instruction that is left out where it would do nothing. -/
theorem wires_emitIf {f : Assembler → Assembler} (instr : Instruction) (needed : Prop)
    [Decidable needed]
    (hf : ∀ asm, f asm = if needed then asm.emit instr.op instr.n instr.r instr.d else asm)
    (hjump : instr.isJump = false) (hcall : instr.isCall = false) :
    Wires [] (emit f) fun _ => [] := by
  by_cases hneeded : needed
  · exact wires_emit instr (fun asm => (hf asm).trans (if_pos hneeded)) hjump hcall
  · intro s s' u hrun waiting
    obtain rfl := emit_eq_ok_iff.1 hrun
    rw [hf, if_neg hneeded]

theorem wires_push (count : Int) : Wires [] (emit (·.push count)) fun _ => [] :=
  wires_emitIf (.push count) (0 < count) (fun _ => rfl) rfl rfl

theorem wires_pop (count : Int) : Wires [] (emit (·.pop count)) fun _ => [] :=
  wires_emitIf (.pop count) (0 < count) (fun _ => rfl) rfl rfl

/-- A jump without a target waits for it. -/
theorem wires_emitJump {jump : Assembler → Assembler} (instr : Instruction)
    (hf : ∀ asm, jump asm = asm.emit instr.op instr.n instr.r instr.d)
    (hjump : instr.isJump = true) : Wires [] (emitJump jump) fun label => [label] := by
  intro s s' label hrun waiting
  obtain ⟨rfl, rfl⟩ := emitJump_eq_ok_iff.1 hrun
  rw [hf]
  exact .single (.jump instr hjump)

theorem wires_jump : Wires [] (emitJump (·.jump)) fun label => [label] :=
  wires_emitJump ⟨.jump, 0, .cb, Instruction.unresolved⟩ (fun _ => rfl) rfl

theorem wires_jumpIf (value : Int) :
    Wires [] (emitJump (·.jumpIf value)) fun label => [label] :=
  wires_emitJump ⟨.jumpif, value, .cb, Instruction.unresolved⟩ (fun _ => rfl) rfl

/-- Jumps lead to the place where they are completed. -/
theorem wires_patchAll (labels : List Label) :
    Wires labels (patchAll labels) fun _ => [] := by
  intro s s' u hrun waiting
  obtain rfl := patchAll_eq_ok_iff.1 hrun
  rw [Assembler.foldl_patch_eq]
  exact Steps.patchAllTo s labels waiting (Nat.le_refl _) (Nat.le_refl _)

/-- Jumps may be completed while later ones wait. -/
theorem wires_patchEarlier (later labels : List Label) :
    Wires (later ++ labels) (patchAll labels) fun _ => later :=
  ((wires_patchAll labels).frame later).reorder fun label => by simp [or_comm]

theorem wires_patch (label : Label) : Wires [label] (emit (·.patch label)) fun _ => [] :=
  wires_patchAll [label]

end Gen

end SmallJava
