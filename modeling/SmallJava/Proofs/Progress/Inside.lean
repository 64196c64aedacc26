import SmallJava.Proofs.Codegen.StmtEmission
import SmallJava.Proofs.Progress.Stmt
import SmallJava.Proofs.Storage

namespace SmallJava

/-- Code is generated where these local variables are in force: everything that has its place
    before methods have theirs has the one that the layout gives it, and the local variables
    follow the link data in their order. Only variables of methods are known. -/
structure GenState.Inside (g : GenState) (analysis : Analysis) (locals : List SymbolId) : Prop where
  signature : g.table.signature = analysis.table.signature
  layout : ∀ statics laidOut, SlotWriter.layout analysis.table = .ok statics laidOut →
    ∀ x d, laidOut.slot? x = some d → g.table.slot? x = some d
  locals : ∀ (i : Nat) x, locals[i]? = some x → g.table.slot? x = some (linkDataSize + i : Int)
  noted : g.asm.Noted
  calls : ∀ note ∈ g.asm.relocations, g.table.isMethod note.target = true
  known : ∀ x word, g.known.get? x = some word →
    analysis.table.kind? x = some .localVar ∨ analysis.table.kind? x = some .param

/-- Between two states nothing happens but that code is appended or completed. Calls that are
    noted are of methods. -/
structure GenState.Extends (s s' : GenState) : Prop where
  quiet : Quiet s s'
  noted : s.asm.Noted → s'.asm.Noted
  notes : s.NotesMethods s'

namespace GenState.Extends

variable {s s₁ s₂ : GenState}

theorem refl (s : GenState) : s.Extends s := ⟨Quiet.refl s, id, .of_eq rfl⟩

theorem trans (h : s.Extends s₁) (h' : s₁.Extends s₂) : s.Extends s₂ where
  quiet := h.quiet.trans h'.quiet
  noted := fun hnoted => h'.noted (h.noted hnoted)
  notes := h.notes.trans h'.notes (by rw [h.quiet.table])

/-- An instruction other than a call is appended, or jumps are completed. -/
theorem of_asm (s : GenState) {asm : Assembler} (hnotes : asm.relocations = s.asm.relocations)
    (hle : (s.asm.here : Nat) ≤ asm.here) : s.Extends { s with asm } := by
  refine ⟨Quiet.asm s asm, fun hnoted => ⟨fun a target hmem => ?_, ?_⟩, .of_eq hnotes⟩
  · dsimp only at hmem
    rw [hnotes] at hmem
    exact Nat.lt_of_lt_of_le (hnoted.below a target hmem) hle
  · dsimp only
    rw [hnotes]
    exact hnoted.sorted

end GenState.Extends

namespace GenState.Inside

variable {g g' : GenState} {analysis : Analysis} {locals more : List SymbolId} {x : SymbolId}
  {strict : Bool} {m : SymbolId} {info : MethodInfo}

theorem kind?_eq (h : g.Inside analysis locals) : g.table.kind? = analysis.table.kind? := by
  rw [← SymbolTable.signature_kind?, h.signature, SymbolTable.signature_kind?]

/-- Everything that an expression uses has its place. -/
theorem ready (h : g.Inside analysis locals) (hwf : analysis.table.WellFormed strict)
    (hkind : analysis.table.kind? m = some (.method info)) :
    g.table.Ready analysis.table.signature (info.params ++ locals) := by
  obtain ⟨statics, laidOut, hlayout, hlaidOut⟩ := hwf.layout
  have hslots := h.layout statics laidOut hlayout
  refine ⟨h.signature, fun x hmem => ?_, fun x cls modifiers hfield => ?_, fun x cinfo hcls => ?_⟩
  · obtain hmem | hmem := List.mem_append.1 hmem
    · obtain ⟨i, hget⟩ := List.mem_iff_getElem?.1 hmem
      exact ⟨_, hslots x _ (hlaidOut.params m info hkind i x hget)⟩
    · obtain ⟨i, hget⟩ := List.mem_iff_getElem?.1 hmem
      exact ⟨_, h.locals i x hget⟩
  · obtain ⟨d, hslot, -⟩ := hlaidOut.fields x cls modifiers hfield
    exact ⟨d, hslots x d hslot⟩
  · obtain ⟨d, hslot⟩ := Option.isSome_iff_exists.1 (hlaidOut.classes x cinfo hcls)
    exact ⟨d, hslots x d hslot⟩

/-- It stays so when code is appended. -/
theorem extend (h : g.Inside analysis locals) (hext : g.Extends g') : g'.Inside analysis locals := by
  obtain ⟨htable, hknown, -⟩ := hext.quiet
  refine ⟨by rw [htable, h.signature], ?_, ?_, hext.noted h.noted, ?_, by rw [hknown]; exact h.known⟩
  · rw [htable]
    exact h.layout
  · rw [htable]
    exact h.locals
  · intro note hmem
    rw [htable]
    exact (hext.notes note hmem).elim (h.calls note) id

/-- What is tracked may change as long as only variables of methods are known. -/
theorem retrack (h : g.Inside analysis locals) (next : Int) {known : Dict SymbolId Word}
    (hknown : ∀ x word, known.get? x = some word →
      analysis.table.kind? x = some .localVar ∨ analysis.table.kind? x = some .param) :
    { g with nextLocal := next, known }.Inside analysis locals :=
  ⟨h.signature, h.layout, h.locals, h.noted, h.calls, hknown⟩

/-- Where code is generated for variables in force, the value of one may become known. -/
theorem learn (h : g.Inside analysis locals) {word : Word}
    (hx : analysis.table.kind? x = some .localVar ∨ analysis.table.kind? x = some .param) :
    { g with known := g.known.insert x word }.Inside analysis locals := by
  refine h.retrack g.nextLocal fun y found hget => ?_
  rw [Dict.get?_insert] at hget
  split at hget
  next heq => exact heq ▸ hx
  next => exact h.known y found hget

theorem forget (h : g.Inside analysis locals) :
    { g with known := g.known.erase x }.Inside analysis locals := by
  refine h.retrack g.nextLocal fun y found hget => ?_
  rw [Dict.get?_erase] at hget
  split at hget
  next => cases hget
  next => exact h.known y found hget

/-- A symbol without a place may get one. -/
theorem setSlot (h : g.Inside analysis locals) {slot : Int} {table : SymbolTable}
    (hset : g.table.setSlot x slot = .ok table) : { g with table }.Inside analysis locals := by
  have hsig : table.signature = g.table.signature := SymbolTable.signature_setSlot hset
  refine ⟨hsig.trans h.signature, fun statics laidOut hlayout y d hslot => ?_,
    fun i y hget => ?_, h.noted, fun note hmem => ?_, h.known⟩
  · exact SymbolTable.slot?_setSlot_of_some hset (h.layout statics laidOut hlayout y d hslot)
  · exact SymbolTable.slot?_setSlot_of_some hset (h.locals i y hget)
  · rw [← SymbolTable.signature_isMethod, hsig, SymbolTable.signature_isMethod]
    exact h.calls note hmem

/-- A variable is in force once it has the offset after the others. -/
theorem append (h : g.Inside analysis locals)
    (hslot : g.table.slot? x = some (linkDataSize + locals.length : Int)) :
    g.Inside analysis (locals ++ [x]) := by
  refine ⟨h.signature, h.layout, fun i y hget => ?_, h.noted, h.calls, h.known⟩
  obtain hlt | heq | hgt := Nat.lt_trichotomy i locals.length
  · rw [List.getElem?_append_left hlt] at hget
    exact h.locals i y hget
  · subst heq
    obtain rfl : x = y := by simpa using hget
    exact hslot
  · rw [List.getElem?_eq_none (by simp; omega)] at hget
    cases hget

/-- The first of the variables were in force before the others. -/
theorem of_append (h : g.Inside analysis (locals ++ more)) : g.Inside analysis locals := by
  refine ⟨h.signature, h.layout, fun i y hget => h.locals i y ?_, h.noted, h.calls, h.known⟩
  have hlt : i < locals.length := (List.getElem?_eq_some_iff.1 hget).1
  rw [List.getElem?_append_left hlt, hget]

end GenState.Inside

/-- After the layout, code can be generated where no local variables are in force. -/
theorem SymbolTable.WellFormed.inside {analysis : Analysis} {strict : Bool} {statics : Int}
    {laidOut : SymbolTable} (hwf : analysis.table.WellFormed strict)
    (hlayout : SlotWriter.layout analysis.table = .ok statics laidOut) (next : Int)
    {known : Dict SymbolId Word} (hknown : ∀ x word, known.get? x = some word →
      analysis.table.kind? x = some .localVar ∨ analysis.table.kind? x = some .param) :
    GenState.Inside { table := laidOut, nextLocal := next, known } analysis [] := by
  have hlaidOut := hwf.laidOut_of_layout hlayout
  refine ⟨hlaidOut.assigned.signature, ?_, by simp, ⟨by simp, .nil⟩, by simp, hknown⟩
  intro _ _ hlayout' x d hslot
  obtain ⟨-, rfl⟩ := EStateM.Result.ok.inj (hlayout.symm.trans hlayout')
  exact hslot

namespace Gen

variable {α β : Type} {table : SymbolTable}

/-- With these declarations the action only appends code. -/
def Appends (table : SymbolTable) (code : Gen α) : Prop :=
  ∀ ⦃s s' : GenState⦄ ⦃a : α⦄, s.table = table → code s = .ok a s' → s.Extends s'

theorem appends_pure {a : α} : Appends table (pure a : Gen α) := by
  intro s s' b _ hrun
  obtain ⟨-, rfl⟩ := pure_eq_ok_iff.1 hrun
  exact .refl s

theorem Appends.bind {code : Gen α} {next : α → Gen β} (hcode : Appends table code)
    (hnext : ∀ a, Appends table (next a)) : Appends table (code >>= next) := by
  intro s s' b hs hrun
  obtain ⟨a, s₁, hrun, hrest⟩ := bind_eq_ok_iff.1 hrun
  have hext : s.Extends s₁ := hcode hs hrun
  exact hext.trans (hnext a (hext.quiet.table.trans hs) hrest)

/-- An action that can be done notes methods only. -/
theorem Runs.appends {code : Gen α} (hruns : Runs table code)
    (hquiet : ∀ ⦃s s' : GenState⦄ ⦃a : α⦄, code s = .ok a s' →
      Quiet s s' ∧ (s.asm.Noted → s'.asm.Noted)) : Appends table code := by
  intro s s' a hs hrun
  obtain ⟨a', s'', hrun', -, hnotes⟩ := hruns s hs
  obtain ⟨rfl, rfl⟩ := EStateM.Result.ok.inj (hrun.symm.trans hrun')
  exact ⟨(hquiet hrun).1, (hquiet hrun).2, hnotes⟩

theorem appends_emit {f : Assembler → Assembler}
    (hnotes : ∀ asm, (f asm).relocations = asm.relocations)
    (hle : ∀ asm : Assembler, (asm.here : Nat) ≤ (f asm).here) : Appends table (emit f) := by
  intro s s' u _ hrun
  obtain rfl := emit_eq_ok_iff.1 hrun
  exact .of_asm s (hnotes s.asm) (hle s.asm)

theorem appends_setLine {line : Nat} : Appends table (emit (·.setLine line)) :=
  appends_emit (fun _ => rfl) fun _ => Nat.le_refl _

/-- One instruction that is no call. -/
theorem appends_instruction {op : Opcode} {n : Int} {r : Register} {d : Int} :
    Appends table (emit (·.emit op n r d)) :=
  appends_emit (fun _ => rfl) fun asm => by simp

theorem appends_pop {count : Int} : Appends table (emit (·.pop count)) := by
  refine appends_emit (fun asm => ?_) fun asm => ?_
  · unfold Assembler.pop
    split <;> rfl
  · unfold Assembler.pop
    split
    · simp
    · exact Nat.le_refl _

theorem appends_jump : Appends table (emitJump (·.jump)) := by
  intro s s' label _ hrun
  obtain ⟨-, rfl⟩ := emitJump_eq_ok_iff.1 hrun
  exact .of_asm s rfl (by simp [Assembler.jump])

theorem appends_patchAllTo {labels : List Label} {target : Address} :
    Appends table (patchAllTo labels target) :=
  appends_emit (f := fun asm => asm.patchAllTo labels target)
    (fun asm => asm.relocations_patchAllTo labels target)
    fun asm => Nat.le_of_eq (asm.here_patchAllTo labels target).symm

theorem appends_patchAll {labels : List Label} : Appends table (patchAll labels) := by
  refine appends_emit (fun asm => ?_) fun asm => ?_
  · rw [Assembler.foldl_patch_eq, Assembler.relocations_patchAllTo]
  · refine Nat.le_of_eq ?_
    rw [Assembler.foldl_patch_eq, Assembler.here_patchAllTo]

theorem appends_patch {label : Label} : Appends table (emit (·.patch label)) := by
  have hpatch : Appends table (patchAll [label]) := appends_patchAll
  exact hpatch

theorem Appends.pushed {code : Gen Value} (hcode : Appends table code) :
    Appends table (pushed code) := by
  refine hcode.bind fun value => ?_
  cases value with
  | known word => exact appends_instruction
  | onStack => exact appends_pure

theorem appends_here : Appends table here := by
  intro s s' a _ hrun
  obtain ⟨-, rfl⟩ := here_eq_ok_iff.1 hrun
  exact .refl s

theorem appends_table : Appends table Gen.table := by
  intro s s' t _ hrun
  obtain ⟨-, rfl⟩ := table_eq_ok_iff.1 hrun
  exact .refl s

theorem Appends.assignElement {target : Reference} {subscript value : Gen Unit}
    (htarget : Appends table target.push) (hsubscript : Appends table subscript)
    (hvalue : Appends table value) : Appends table (assignElement target subscript value) := by
  refine htarget.bind fun _ => ?_
  refine hsubscript.bind fun _ => ?_
  refine hvalue.bind fun _ => ?_
  exact appends_instruction

theorem Appends.callFor {callee : Reference} {args : Gen Unit}
    (hcall : Appends table (call callee args)) : Appends table (callFor callee args) := by
  refine hcall.bind fun method => ?_
  refine appends_table.bind fun _ => ?_
  split
  · exact appends_pop
  · exact appends_pure

theorem appends_returnWith {site : Site} {value : Option (Gen Unit)}
    (hvalue : ∀ code ∈ value, Appends table code) : Appends table (returnWith site value) := by
  cases value with
  | none => exact appends_instruction
  | some code => exact (hvalue code rfl).bind fun _ => appends_instruction

theorem appends_backTo {start : Address} (cond : Cond) : Appends table (backTo start cond) := by
  match cond with
  | .known true => exact appends_instruction
  | .known false => exact appends_pure
  | .jumps back => exact appends_patchAllTo

end Gen

section Expressions

open Gen

variable {table : SymbolTable} {Γ : Context} {vars : List SymbolId}
  (hready : table.Ready Γ.sig vars) (site : Site)

include hready

namespace Reference

theorem Value.appends_push {target : Reference} {ty : Ty} (h : target.Value Γ vars ty) :
    Appends table target.push :=
  (h.runs_push hready).appends fun _ _ _ hrun => (target.push_emits hrun).imp_right (·.noted)

theorem Value.appends_destination {target : Reference} {ty : Ty} (h : target.Value Γ vars ty)
    (hplace : target.Assignable Γ.sig) : Appends table target.destination :=
  (h.runs_destination hready hplace).appends fun _ _ _ hrun =>
    (target.destination_emits hrun).imp_right (·.noted)

end Reference

namespace Expr

variable {expr : Expr} {ty : Ty}

/-- The code of an expression that leaves its value known or on the stack. -/
theorem HasType.appends_genValue (h : expr.HasType Γ vars ty) : Appends table (expr.genValue site) :=
  (h.runs_genValue site hready).appends fun _ _ _ hrun =>
    (expr.genValue_yields site hrun).imp_right (·.noted)

/-- The code of an expression that leaves its value on the stack. -/
theorem HasType.appends_genPush (h : expr.HasType Γ vars ty) : Appends table (expr.genPush site) :=
  (h.runs_genValue site hready).pushed.appends fun _ _ _ hrun =>
    (expr.genPush_pushes site hrun).imp_right (·.noted)

/-- The code of an expression that is tested. -/
theorem HasType.appends_genCond (h : expr.HasType Γ vars ty) (when : Bool) :
    Appends table (expr.genCond site when) :=
  (h.runs_genCond site hready when).appends fun _ _ _ hrun =>
    (expr.genCond_yields site when hrun).imp_right (·.noted)

/-- The code of a call with its arguments. -/
theorem ArgsFit.appends_call {args : List Expr} {callee : Reference} {m : SymbolId}
    (h : ArgsFit Γ vars args (Γ.sig.paramsOf m)) (hcallee : callee.Callee Γ vars m) :
    Appends table (Gen.call callee (genArgs site args)) :=
  (hcallee.runs_call hready (h.runs_genArgs site hready)).appends fun _ _ _ hrun =>
    (call_emits (genArgs_pushes site args) hrun).imp_right (·.noted)

end Expr

/-- Wherever the code of an expression is generated, with everything in its place before it,
    everything is in its place behind it, where the code of what follows is generated: of the next
    operand, of the instruction that uses the value, of the branches that the outcome decides on. -/
theorem Expr.HasType.inside {expr : Expr} {ty : Ty} (h : expr.HasType Γ vars ty)
    {before : GenState} {analysis : Analysis} {locals : List SymbolId}
    (hbefore : before.Inside analysis locals) (htable : before.table = table) :
    (∀ value after, expr.genValue site before = .ok value after → after.Inside analysis locals) ∧
      (∀ after, expr.genPush site before = .ok () after → after.Inside analysis locals) ∧
        ∀ when outcome after, expr.genCond site when before = .ok outcome after →
          after.Inside analysis locals :=
  ⟨fun _ _ hrun => hbefore.extend (h.appends_genValue hready site htable hrun),
    fun _ hrun => hbefore.extend (h.appends_genPush hready site htable hrun),
    fun when _ _ hrun => hbefore.extend (h.appends_genCond hready site when htable hrun)⟩

theorem Stmt.appends_loopCond {cond : Option Expr}
    (hcond : ∀ expr ∈ cond, expr.HasType Γ vars .boolean) (when : Bool) :
    Appends table (loopCond site cond when) := by
  cases cond with
  | none => exact appends_pure
  | some expr => exact (hcond expr rfl).appends_genCond hready site when

end Expressions

end SmallJava
