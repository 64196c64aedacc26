import SmallJava.Codegen.Expr
import SmallJava.Proofs.Codegen.Steps
import SmallJava.Proofs.Typing.ReferenceSoundness

namespace SmallJava

/-- The second state has no noted calls but those of the first and calls of methods. -/
def GenState.NotesMethods (s s' : GenState) : Prop :=
  ∀ note ∈ s'.asm.relocations, note ∈ s.asm.relocations ∨ s.table.isMethod note.target = true

theorem GenState.NotesMethods.of_eq {s s' : GenState}
    (heq : s'.asm.relocations = s.asm.relocations) : s.NotesMethods s' := by
  intro note hmem
  rw [heq] at hmem
  exact .inl hmem

/-- Methods that are noted in two parts in a row are noted by both together. -/
theorem GenState.NotesMethods.trans {s₁ s₂ s₃ : GenState} (h : s₁.NotesMethods s₂)
    (h' : s₂.NotesMethods s₃) (hsame : s₂.table.isMethod = s₁.table.isMethod) :
    s₁.NotesMethods s₃ := by
  intro note hmem
  obtain hmem | hmethod := h' note hmem
  · exact h note hmem
  · rw [hsame] at hmethod
    exact .inr hmethod

namespace Gen

variable {α β : Type} {table : SymbolTable}

/-- With these declarations the action succeeds. It leaves them alone and notes calls of
    methods only. -/
def Runs (table : SymbolTable) (code : Gen α) : Prop :=
  ∀ s : GenState, s.table = table →
    ∃ a s', code s = .ok a s' ∧ s'.table = table ∧ s.NotesMethods s'

theorem runs_pure {a : α} : Runs table (pure a : Gen α) :=
  fun s hs => ⟨a, s, rfl, hs, .of_eq rfl⟩

theorem Runs.bind {code : Gen α} {next : α → Gen β} (hcode : Runs table code)
    (hnext : ∀ a, Runs table (next a)) : Runs table (code >>= next) := by
  intro s hs
  obtain ⟨a, s₁, hrun, hs₁, hnotes⟩ := hcode s hs
  obtain ⟨b, s₂, hrun', hs₂, hnotes'⟩ := hnext a s₁ hs₁
  exact ⟨b, s₂, (bind_of_ok hrun).trans hrun', hs₂, hnotes.trans hnotes' (by rw [hs₁, hs])⟩

theorem Runs.map {code : Gen α} {f : α → β} (hcode : Runs table code) :
    Runs table (f <$> code) := by
  rw [map_eq_pure_bind]
  exact hcode.bind fun _ => runs_pure

/-- What follows a look at the declarations sees these. -/
theorem runs_table {next : SymbolTable → Gen β} (hnext : Runs table (next table)) :
    Runs table (Gen.table >>= next) := by
  rintro s rfl
  exact hnext s rfl

theorem runs_bound {binding : Option SymbolId} {span : Span} {x : SymbolId}
    (hbound : binding = some x) {next : SymbolId → Gen β} (hnext : Runs table (next x)) :
    Runs table (bound binding span >>= next) := by
  subst hbound
  exact hnext

theorem runs_expectSlot {x : SymbolId} {d : Int} (hslot : table.slot? x = some d)
    {next : Int → Gen β} (hnext : Runs table (next d)) :
    Runs table (expectSlot x >>= next) := by
  rintro s rfl
  obtain ⟨b, s', hrun, hrest⟩ := hnext s rfl
  exact ⟨b, s', (bind_of_ok (expectSlot_eq_ok_iff.2 ⟨hslot, rfl⟩)).trans hrun, hrest⟩

/-- An instruction other than a call, or the completion of jumps. -/
theorem runs_emit {f : Assembler → Assembler}
    (hnotes : ∀ asm, (f asm).relocations = asm.relocations) :
    Runs table (emit f) :=
  fun s hs => ⟨(), { s with asm := f s.asm }, rfl, hs, .of_eq (hnotes s.asm)⟩

theorem runs_emitJump {jump : Assembler → Assembler}
    (hnotes : ∀ asm, (jump asm).relocations = asm.relocations) :
    Runs table (emitJump jump) :=
  fun s hs =>
    ⟨s.asm.nextLabel, { s with asm := jump s.asm }, rfl, hs, .of_eq (hnotes s.asm)⟩

/-- A call of a method, which is noted if the method has no place yet. -/
theorem runs_emitCall {onInstance : Bool} {m : SymbolId} {entry : Option Int}
    (hmethod : table.isMethod m = true) : Runs table (emit (·.call onInstance m entry)) := by
  rintro s rfl
  refine ⟨(), _, rfl, rfl, ?_⟩
  cases entry with
  | some entry => exact .of_eq rfl
  | none =>
    intro note hmem
    obtain hmem | hmem := List.mem_append.1 hmem
    · exact .inl hmem
    · obtain rfl := List.mem_singleton.1 hmem
      exact .inr hmethod

theorem runs_patchAll {labels : List Label} : Runs table (patchAll labels) :=
  runs_emit fun asm => by rw [Assembler.foldl_patch_eq, Assembler.relocations_patchAllTo]

theorem runs_patchAllTo {labels : List Label} {target : Address} :
    Runs table (patchAllTo labels target) :=
  runs_emit fun asm => Assembler.relocations_patchAllTo asm labels target

theorem runs_constantAt {site : Site} {expr : Expr} : Runs table (constantAt site expr) :=
  fun s hs => ⟨_, s, rfl, hs, .of_eq rfl⟩

theorem Runs.pushed {code : Gen Value} (hcode : Runs table code) : Runs table (pushed code) := by
  refine hcode.bind fun value => ?_
  cases value with
  | known word => exact runs_emit fun _ => by rfl
  | onStack => exact runs_pure

theorem Runs.unlessKnown {site : Site} {expr : Expr} {code : Gen Value}
    (hcode : Runs table code) : Runs table (unlessKnown site expr code) := by
  refine runs_constantAt.bind fun found => ?_
  cases found with
  | some word => exact runs_pure
  | none => exact hcode

/-- A condition that is known already needs no code that could fail. -/
theorem Runs.condUnlessKnown {site : Site} {expr : Expr} {code : Gen Cond}
    (hcode : Runs table code) : Runs table (do
      match ← constantAt site expr with
      | some word => pure (.known word.isTrue)
      | none => code) := by
  refine runs_constantAt.bind fun found => ?_
  cases found with
  | some word => exact runs_pure
  | none => exact hcode

theorem Runs.unary {op : UnaryOp} {operand : Gen Unit} (hoperand : Runs table operand) :
    Runs table (unary op operand) := by
  refine hoperand.bind fun _ => ?_
  refine (runs_emit fun _ => by rfl).bind fun _ => ?_
  exact runs_pure

theorem Runs.binary {op : BinaryOp} {left right : Gen Unit} (hleft : Runs table left)
    (hright : Runs table right) : Runs table (binary op left right) := by
  refine hleft.bind fun _ => ?_
  refine hright.bind fun _ => ?_
  refine (runs_emit fun _ => by rfl).bind fun _ => ?_
  exact runs_pure

/-- A choice between two pieces of code succeeds if both do. -/
theorem Runs.choose {onTrue onFalse : Gen Unit} (hTrue : Runs table onTrue)
    (hFalse : Runs table onFalse) (cond : Cond) : Runs table (choose onTrue onFalse cond) := by
  match cond with
  | .known true => exact hTrue
  | .known false => exact hFalse
  | .jumps toElse =>
    refine hTrue.bind fun _ => ?_
    refine (runs_emitJump fun _ => by rfl).bind fun _ => ?_
    refine runs_patchAll.bind fun _ => ?_
    refine hFalse.bind fun _ => ?_
    exact runs_emit fun _ => by rfl

theorem Runs.ternary {cond : Bool → Gen Cond} {onTrue onFalse : Gen Unit}
    (hcond : Runs table (cond false)) (hTrue : Runs table onTrue) (hFalse : Runs table onFalse) :
    Runs table (ternary cond onTrue onFalse) := by
  refine hcond.bind fun found => ?_
  refine (hTrue.choose hFalse found).bind fun _ => ?_
  exact runs_pure

/-- The code of a logical operator succeeds if that of its operands does. -/
theorem Runs.logical {op : BinaryOp} {leftKnown rightKnown : Gen (Option Word)}
    {left right : Gen Value} (hleftKnown : Runs table leftKnown)
    (hrightKnown : Runs table rightKnown) (hleft : Runs table left) (hright : Runs table right) :
    Runs table (logical op leftKnown rightKnown left right) := by
  refine hleftKnown.bind fun found => ?_
  cases found with
  | some word =>
    dsimp only
    split
    · exact runs_pure
    · exact hright
  | none =>
    refine hleft.pushed.bind fun _ => ?_
    refine hrightKnown.bind fun found => ?_
    cases found with
    | some word =>
      dsimp only
      split
      · exact (runs_emit fun asm => by unfold Assembler.pop; split <;> rfl).bind
          fun _ => runs_pure
      · exact runs_pure
    | none =>
      refine (runs_emitJump fun _ => by rfl).bind fun _ => ?_
      refine hright.pushed.bind fun _ => ?_
      refine (runs_emitJump fun _ => by rfl).bind fun _ => ?_
      refine (runs_emit fun _ => by rfl).bind fun _ => ?_
      refine (runs_emit fun _ => by rfl).bind fun _ => ?_
      refine (runs_emit fun _ => by rfl).bind fun _ => ?_
      exact runs_pure

theorem Runs.element {target : Reference} {subscript : Gen Unit} (htarget : Runs table target.push)
    (hsubscript : Runs table subscript) : Runs table (element target subscript) := by
  refine htarget.bind fun _ => ?_
  refine hsubscript.bind fun _ => ?_
  refine (runs_emit fun _ => by rfl).bind fun _ => ?_
  exact runs_pure

theorem runs_newObject {cls : Ident} {x : SymbolId} {size : Int} (hbound : cls.binding = some x)
    (hslot : table.slot? x = some size) : Runs table (newObject cls) := by
  refine runs_bound hbound ?_
  refine runs_expectSlot hslot ?_
  refine (runs_emit fun _ => by rfl).bind fun _ => ?_
  refine (runs_emit fun _ => by rfl).bind fun _ => ?_
  refine (runs_emit fun _ => by rfl).bind fun _ => ?_
  exact runs_pure

theorem Runs.newArray {size : Gen Unit} (hsize : Runs table size) : Runs table (newArray size) := by
  refine hsize.bind fun _ => ?_
  refine (runs_emit fun _ => by rfl).bind fun _ => ?_
  exact runs_pure

theorem Runs.jumpOn {when : Bool} {code : Gen Value} (hcode : Runs table code) :
    Runs table (jumpOn when code) := by
  refine hcode.bind fun value => ?_
  cases value with
  | known word => exact runs_pure
  | onStack => exact (runs_emitJump fun _ => by rfl).bind fun _ => runs_pure

theorem runs_jumpsOf {when : Bool} (cond : Cond) : Runs table (jumpsOf when cond) := by
  cases cond with
  | known outcome =>
    unfold jumpsOf
    dsimp only
    split
    · exact (runs_emitJump fun _ => by rfl).bind fun _ => runs_pure
    · exact runs_pure
  | jumps labels => exact runs_pure

/-- The jumps of a logical operator succeed if those of its operands do. -/
theorem Runs.chain {op : BinaryOp} {left right : Bool → Gen Cond} {when : Bool}
    (hleft : ∀ when, Runs table (left when)) (hright : ∀ when, Runs table (right when)) :
    Runs table (chain op left right when) := by
  unfold Gen.chain
  split
  · refine (hleft _).bind fun cond => ?_
    refine (runs_jumpsOf cond).bind fun _ => ?_
    refine (hright _).bind fun cond => ?_
    refine (runs_jumpsOf cond).bind fun _ => ?_
    exact runs_pure
  · refine (hleft _).bind fun cond => ?_
    refine (runs_jumpsOf cond).bind fun _ => ?_
    refine (hright _).bind fun cond => ?_
    refine (runs_jumpsOf cond).bind fun _ => ?_
    refine runs_patchAll.bind fun _ => ?_
    exact runs_pure

end Gen

/-- The declarations are those of the judgement, and everything that code can use where
    these variables are in force has its place. -/
structure SymbolTable.Ready (table : SymbolTable) (sig : Signature) (vars : List SymbolId) :
    Prop where
  signature : table.signature = sig
  vars : ∀ x ∈ vars, ∃ d, table.slot? x = some d
  fields : ∀ x cls modifiers, sig.kind? x = some (.field cls modifiers) →
    ∃ d, table.slot? x = some d
  classes : ∀ x info, sig.kind? x = some (.cls info) → ∃ d, table.slot? x = some d

namespace SymbolTable.Ready

variable {table : SymbolTable} {sig : Signature} {vars : List SymbolId} {x : SymbolId}

theorem kind?_eq (h : table.Ready sig vars) : table.kind? = sig.kind? := by
  rw [← h.signature, signature_kind?]

theorem isStatic_eq (h : table.Ready sig vars) : table.isStatic = sig.isStatic := by
  rw [← h.signature, signature_isStatic]

theorem isMethod_eq (h : table.Ready sig vars) : table.isMethod = sig.isMethod := by
  rw [← h.signature, signature_isMethod]

theorem isField_eq (h : table.Ready sig vars) : table.isField = sig.isField := by
  rw [← h.signature, signature_isField]

end SymbolTable.Ready

section References

open Gen

variable {table : SymbolTable} {Γ : Context} {vars : List SymbolId}
  (hready : table.Ready Γ.sig vars)

include hready

/-- A variable in force and a field of the current class have their place. -/
theorem Gen.runs_place {x : SymbolId} {β : Type} {next : Register × Int → Gen β}
    (hx : (x ∈ vars ∧ (Γ.sig.kind? x = some .localVar ∨ Γ.sig.kind? x = some .param)) ∨
      ∃ cls modifiers, Γ.sig.kind? x = some (.field cls modifiers))
    (hnext : ∀ found, Runs table (next found)) : Runs table (place x >>= next) := by
  obtain ⟨r, d, hbase, hslot⟩ : ∃ r d, (Γ.sig.kind? x).bind (·.base?) = some r ∧
      table.slot? x = some d := by
    obtain ⟨hvar, hkind⟩ | ⟨cls, modifiers, hkind⟩ := hx
    · obtain ⟨d, hslot⟩ := hready.vars x hvar
      obtain hkind | hkind := hkind <;> exact ⟨_, d, by rw [hkind]; rfl, hslot⟩
    · obtain ⟨d, hslot⟩ := hready.fields x cls modifiers hkind
      exact ⟨_, d, by rw [hkind]; rfl, hslot⟩
  rintro s rfl
  obtain ⟨b, s', hrun, hrest⟩ := hnext (r, d) s rfl
  refine ⟨b, s', (bind_of_ok (place_eq_ok_iff.2 ⟨?_, hslot, rfl⟩)).trans hrun, hrest⟩
  rw [hready.kind?_eq]
  exact hbase

namespace Reference

/-- The value of a well-typed path can be pushed. -/
theorem Value.runs_push {target : Reference} {ty : Ty} (h : target.Value Γ vars ty) :
    Runs table target.push := by
  induction h with
  | this hinstance => exact runs_emit fun _ => by rfl
  | «variable» hbound hvar hkind =>
    exact runs_bound hbound (runs_place hready (.inl ⟨hvar, hkind⟩) fun _ => runs_emit fun _ => rfl)
  | ownField hbound hkind hstatic =>
    exact runs_bound hbound (runs_place hready (.inr ⟨_, _, hkind⟩) fun _ => runs_emit fun _ => rfl)
  | @staticField annot owner name x cls modifiers hbound hkind hstatic =>
    obtain ⟨d, hslot⟩ := hready.fields x cls modifiers hkind
    refine runs_bound hbound (runs_table ?_)
    rw [hready.kind?_eq, hkind, hready.isStatic_eq, Γ.sig.isStatic_of_field hkind, hstatic]
    exact runs_expectSlot hslot (runs_emit fun _ => by rfl)
  | @field annot owner name x cls modifiers hbound hkind hstatic howner ih =>
    obtain ⟨d, hslot⟩ := hready.fields x cls modifiers hkind
    refine runs_bound hbound (runs_table ?_)
    rw [hready.kind?_eq, hkind, hready.isStatic_eq, Γ.sig.isStatic_of_field hkind, hstatic]
    dsimp only
    rw [if_neg (by simp)]
    split
    · exact runs_expectSlot hslot (runs_emit fun _ => by rfl)
    · refine ih.bind fun _ => runs_expectSlot hslot ?_
      refine (runs_emit fun _ => by rfl).bind fun _ => ?_
      exact runs_emit fun _ => rfl
  | length hbound hkind howner ih =>
    refine runs_bound hbound (runs_table ?_)
    rw [hready.kind?_eq, hkind]
    exact ih.bind fun _ => runs_emit fun _ => by rfl

/-- An assignment to a place of its own can be prepared. -/
theorem Value.runs_destination {target : Reference} {ty : Ty} (h : target.Value Γ vars ty)
    (hplace : target.Assignable Γ.sig) : Runs table target.destination := by
  obtain ⟨y, hbinding, hlength⟩ := hplace
  cases h with
  | this hinstance => cases hbinding
  | «variable» hbound hvar hkind =>
    exact runs_bound hbound (runs_place hready (.inl ⟨hvar, hkind⟩) fun _ => runs_pure)
  | ownField hbound hkind hstatic =>
    exact runs_bound hbound (runs_place hready (.inr ⟨_, _, hkind⟩) fun _ => runs_pure)
  | @staticField annot owner name x cls modifiers hbound hkind hstatic =>
    obtain ⟨d, hslot⟩ := hready.fields x cls modifiers hkind
    refine runs_bound hbound (runs_table ?_)
    rw [hready.isField_eq, Γ.sig.isField_iff.2 ⟨_, _, hkind⟩, if_pos rfl]
    refine runs_expectSlot hslot ?_
    rw [hready.isStatic_eq, Γ.sig.isStatic_of_field hkind, hstatic]
    exact runs_pure
  | @field annot owner name x cls modifiers hbound hkind hstatic howner =>
    obtain ⟨d, hslot⟩ := hready.fields x cls modifiers hkind
    refine runs_bound hbound (runs_table ?_)
    rw [hready.isField_eq, Γ.sig.isField_iff.2 ⟨_, _, hkind⟩, if_pos rfl]
    refine runs_expectSlot hslot ?_
    rw [hready.isStatic_eq, Γ.sig.isStatic_of_field hkind, hstatic, if_neg (by simp)]
    split
    · exact runs_pure
    · refine (howner.runs_push hready).bind fun _ => ?_
      refine (runs_emit fun _ => by rfl).bind fun _ => ?_
      exact runs_pure
  | length hbound hkind howner =>
    obtain rfl := Option.some.inj (hbinding.symm.trans hbound)
    exact absurd hkind hlength

/-- The call of a typed method succeeds if the code of its arguments does. -/
theorem Callee.runs_call {callee : Reference} {m : SymbolId} (h : callee.Callee Γ vars m)
    {args : Gen Unit} (hargs : Runs table args) : Runs table (Gen.call callee args) := by
  obtain ⟨hbound, info, hkind⟩ := h.kind
  have hmethod : table.isMethod m = true := by
    rw [hready.isMethod_eq]
    exact Γ.sig.isMethod_iff.2 ⟨info, hkind⟩
  refine hargs.bind fun _ => runs_bound hbound (runs_table ?_)
  rw [if_pos hmethod]
  refine Runs.bind ?_ fun _ => runs_pure
  unfold callMethod
  rw [hready.isStatic_eq, Γ.sig.isStatic_of_method hkind]
  split
  next => exact runs_emitCall hmethod
  next hinstance =>
    refine Runs.bind ?_ fun _ => runs_emitCall hmethod
    cases callee with
    | this annot => exact runs_emit (f := (·.loadAddress .ob 0)) fun _ => rfl
    | ident annot name => exact runs_emit (f := (·.loadAddress .ob 0)) fun _ => rfl
    | member annot owner name =>
      exact (h.owner_of_instance hkind (by simpa using hinstance)).runs_push hready

end Reference

end References

open Gen

namespace Expr

variable {table : SymbolTable} {Γ : Context} {vars : List SymbolId} (site : Site)

mutual

/-- Code for the value of a well-typed expression can be generated. -/
theorem HasType.runs_genValue (hready : table.Ready Γ.sig vars) : {expr : Expr} → {ty : Ty} → expr.HasType Γ vars ty →
    Runs table (expr.genValue site)
  | int .., _ => fun _ => runs_pure.unlessKnown
  | bool .., _ => fun _ => runs_pure.unlessKnown
  | null .., _ => fun _ => runs_pure.unlessKnown
  | unary _ op operand, _ => by
    intro h
    unfold genValue
    cases h with
    | not hoperand => exact (hoperand.runs_genValue hready).pushed.unary.unlessKnown
    | neg hoperand => exact (hoperand.runs_genValue hready).pushed.unary.unlessKnown
  | binary _ op left right, _ => by
    intro h
    obtain ⟨τ, τ', hleft, hright⟩ : ∃ τ τ', left.HasType Γ vars τ ∧ right.HasType Γ vars τ' := by
      cases h <;> exact ⟨_, _, ‹_›, ‹_›⟩
    unfold genValue
    refine Runs.unlessKnown ?_
    dsimp only
    split
    · exact runs_constantAt.logical runs_constantAt (hleft.runs_genValue hready) (hright.runs_genValue hready)
    · exact (hleft.runs_genValue hready).pushed.binary (hright.runs_genValue hready).pushed
  | ternary _ cond onTrue onFalse, _ => by
    intro h
    unfold genValue
    cases h with
    | ternary hcond hTrue hFalse =>
      exact ((hcond.runs_genCond hready false).ternary (hTrue.runs_genValue hready).pushed
        (hFalse.runs_genValue hready).pushed).unlessKnown
  | ref _ target, _ => by
    intro h
    unfold genValue
    cases h with
    | ref htarget =>
      exact ((htarget.runs_push hready).bind fun _ => runs_pure).unlessKnown
  | index _ target subscript, _ => by
    intro h
    unfold genValue
    cases h with
    | index htarget hsubscript =>
      exact ((htarget.runs_push hready).element (hsubscript.runs_genValue hready).pushed).unlessKnown
  | call _ callee args, _ => by
    intro h
    unfold genValue
    cases h with
    | call hcallee hargs =>
      exact ((hcallee.runs_call hready (hargs.runs_genArgs hready)).bind fun _ => runs_pure).unlessKnown
  | newObject _ cls, _ => by
    intro h
    unfold genValue
    cases h with
    | newObject hbound hkind =>
      obtain ⟨d, hslot⟩ := hready.classes _ _ hkind
      exact (runs_newObject hbound hslot).unlessKnown
  | newArray _ elem size, _ => by
    intro h
    unfold genValue
    cases h with
    | newArray _ hsize => exact (hsize.runs_genValue hready).pushed.newArray.unlessKnown

/-- Code for a well-typed expression as a condition can be generated. -/
theorem HasType.runs_genCond (hready : table.Ready Γ.sig vars) : {expr : Expr} → {ty : Ty} → expr.HasType Γ vars ty →
    (when : Bool) → Runs table (expr.genCond site when)
  | int .., _ => by
    intro _ _
    unfold genCond
    exact runs_pure.condUnlessKnown
  | bool .., _ => by
    intro _ _
    unfold genCond
    exact runs_pure.condUnlessKnown
  | null .., _ => by
    intro _ _
    unfold genCond
    exact runs_pure.condUnlessKnown
  | unary _ .not operand, _ => by
    intro h when
    unfold genCond
    cases h with
    | not hoperand => exact (hoperand.runs_genCond hready !when).map.condUnlessKnown
  | unary _ .neg operand, _ => by
    intro h _
    unfold genCond
    cases h with
    | neg hoperand => exact (hoperand.runs_genValue hready).pushed.unary.jumpOn.condUnlessKnown
  | binary _ op left right, _ => by
    intro h when
    obtain ⟨τ, τ', hleft, hright⟩ : ∃ τ τ', left.HasType Γ vars τ ∧ right.HasType Γ vars τ' := by
      cases h <;> exact ⟨_, _, ‹_›, ‹_›⟩
    unfold genCond
    refine Runs.condUnlessKnown ?_
    dsimp only
    split
    · exact .chain (hleft.runs_genCond hready) (hright.runs_genCond hready)
    · exact ((hleft.runs_genValue hready).pushed.binary (hright.runs_genValue hready).pushed).jumpOn
  | ternary _ cond onTrue onFalse, _ => by
    intro h _
    unfold genCond
    cases h with
    | ternary hcond hTrue hFalse =>
      exact ((hcond.runs_genCond hready false).ternary (hTrue.runs_genValue hready).pushed
        (hFalse.runs_genValue hready).pushed).jumpOn.condUnlessKnown
  | ref _ target, _ => by
    intro h _
    unfold genCond
    cases h with
    | ref htarget =>
      exact ((htarget.runs_push hready).bind fun _ => runs_pure).jumpOn.condUnlessKnown
  | index _ target subscript, _ => by
    intro h _
    unfold genCond
    cases h with
    | index htarget hsubscript =>
      exact ((htarget.runs_push hready).element (hsubscript.runs_genValue hready).pushed).jumpOn.condUnlessKnown
  | call _ callee args, _ => by
    intro h _
    unfold genCond
    cases h with
    | call hcallee hargs =>
      exact ((hcallee.runs_call hready (hargs.runs_genArgs hready)).bind
        fun _ => runs_pure).jumpOn.condUnlessKnown
  | newObject _ cls, _ => by
    intro h _
    unfold genCond
    cases h with
    | newObject hbound hkind =>
      obtain ⟨d, hslot⟩ := hready.classes _ _ hkind
      exact (runs_newObject hbound hslot).jumpOn.condUnlessKnown
  | newArray _ elem size, _ => by
    intro h _
    unfold genCond
    cases h with
    | newArray _ hsize => exact (hsize.runs_genValue hready).pushed.newArray.jumpOn.condUnlessKnown

/-- The code of arguments that fit succeeds. -/
theorem ArgsFit.runs_genArgs (hready : table.Ready Γ.sig vars) : {args : List Expr} → {params : List SymbolId} →
    Expr.ArgsFit Γ vars args params → Runs table (genArgs site args)
  | [], _ => fun _ => runs_pure
  | arg :: rest, _ => by
    intro h
    cases h with
    | cons harg _ hrest => exact (harg.runs_genValue hready).pushed.bind fun _ => hrest.runs_genArgs hready

end

end Expr

end SmallJava
