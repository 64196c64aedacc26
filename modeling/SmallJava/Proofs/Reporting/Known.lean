import SmallJava.Proofs.Reporting.Bodies
import SmallJava.Proofs.Typing.Judgement

/-! No part of a well-typed body stands for a mistake. -/

namespace SmallJava

/-- All declarations have types that can be written. -/
def Signature.Written (sig : Signature) : Prop :=
  ∀ x kind, sig.kind? x = some kind → (sig.typeOf x).isWritten = true

/-- Not standing for a mistake. -/
def Expr.Known (expr : Expr) : Prop := expr.annot.ty ≠ some .error

/-- The expressions that stand in the statement, but not in a statement in it, are known. -/
def Stmt.Known (stmt : Stmt) : Prop := ∀ expr ∈ stmt.own, ∀ e ∈ expr.exprs, e.Known

namespace Ty

theorem ne_error_of_isWritten {ty : Ty} (h : ty.isWritten = true) : ty ≠ error := by
  rintro rfl
  cases h

theorem Fits.ne_error {found expected : Ty} (h : found.Fits expected) (hfound : found ≠ error) :
    expected ≠ error := by
  cases h with
  | same => exact hfound
  | nullObject | nullArray => exact Ty.noConfusion

end Ty

/-- An expression that is no mistake, with parts that are none. -/
theorem Expr.known_of_inner {expr : Expr} {ty : Ty} (hty : expr.annot.ty = some ty)
    (hknown : ty ≠ .error) (hinner : ∀ e ∈ expr.inner, e.Known) :
    (∀ e ∈ expr.exprs, e.Known) ∧ ty ≠ .error := by
  refine ⟨List.forall_mem_cons.2 ⟨?_, hinner⟩, hknown⟩
  rw [Known, hty]
  exact fun heq => hknown (Option.some.inj heq)

variable {Γ : Context} {vars : List SymbolId}

theorem Reference.Value.isWritten (hwritten : Γ.sig.Written) {target : Reference} {ty : Ty}
    (h : target.Value Γ vars ty) : ty.isWritten = true := by
  cases h with
  | this | length => rfl
  | «variable» _ _ hkind => exact hkind.elim (hwritten _ _) (hwritten _ _)
  | ownField _ hkind _ | staticField _ hkind _ | field _ hkind _ _ => exact hwritten _ _ hkind

theorem Reference.Callee.isWritten (hwritten : Γ.sig.Written) {callee : Reference} {m : SymbolId}
    (h : callee.Callee Γ vars m) : (Γ.sig.typeOf m).isWritten = true := by
  cases h with
  | own _ hkind _ _ | static _ hkind _ | «instance» _ hkind _ _ => exact hwritten _ _ hkind

namespace Expr

mutual

/-- No part of a typed expression is a mistake. -/
theorem HasType.known (hwritten : Γ.sig.Written) : {expr : Expr} → {ty : Ty} →
    expr.HasType Γ vars ty → (∀ e ∈ expr.exprs, e.Known) ∧ ty ≠ .error
  | int annot value, _, h => by
    cases h with
    | int hty => exact known_of_inner hty Ty.noConfusion (List.forall_mem_nil _)
  | bool annot value, _, h => by
    cases h with
    | bool hty => exact known_of_inner hty Ty.noConfusion (List.forall_mem_nil _)
  | null annot, _, h => by
    cases h with
    | null hty => exact known_of_inner hty Ty.noConfusion (List.forall_mem_nil _)
  | unary annot op operand, _, h => by
    cases h with
    | not hoperand hty | neg hoperand hty =>
      exact known_of_inner hty Ty.noConfusion (HasType.known hwritten hoperand).1
  | binary annot op left right, _, h => by
    cases h with
    | logical _ hleft hright hty | relational _ hleft hright hty | arithmetic _ hleft hright hty
    | equality _ hleft hright _ _ hty =>
      exact known_of_inner hty Ty.noConfusion
        (List.forall_mem_append.2 ⟨(HasType.known hwritten hleft).1, (HasType.known hwritten hright).1⟩)
  | ternary annot cond onTrue onFalse, ty, h => by
    cases h with
    | ternary hcond hTrue hFalse hfits _ hty =>
      obtain ⟨hTrue, hknown⟩ := HasType.known hwritten hTrue
      exact known_of_inner hty (hfits.ne_error hknown) (List.forall_mem_append.2
        ⟨List.forall_mem_append.2 ⟨(HasType.known hwritten hcond).1, hTrue⟩,
          (HasType.known hwritten hFalse).1⟩)
  | ref annot target, _, h => by
    cases h with
    | ref htarget hty =>
      exact known_of_inner hty (Ty.ne_error_of_isWritten (htarget.isWritten hwritten))
        (List.forall_mem_nil _)
  | index annot target subscript, _, h => by
    cases h with
    | index htarget hsubscript hty =>
      have helem := htarget.isWritten hwritten
      exact known_of_inner hty (Ty.ne_error_of_isWritten (by simpa [Ty.isWritten] using helem))
        (HasType.known hwritten hsubscript).1
  | call annot callee args, _, h => by
    cases h with
    | call hcallee hargs hty =>
      exact known_of_inner hty (Ty.ne_error_of_isWritten (hcallee.isWritten hwritten))
        (ArgsFit.known hwritten hargs)
  | newObject annot cls, _, h => by
    cases h with
    | newObject _ _ hcls hty =>
      refine known_of_inner hty ?_ (List.forall_mem_nil _)
      obtain rfl | rfl := hcls <;> exact Ty.noConfusion
  | newArray annot elem size, _, h => by
    cases h with
    | newArray _ hsize hty => exact known_of_inner hty Ty.noConfusion (HasType.known hwritten hsize).1

/-- Arguments that fit hold no mistake. -/
theorem ArgsFit.known (hwritten : Γ.sig.Written) : {args : List Expr} →
    {params : List SymbolId} → ArgsFit Γ vars args params → ∀ e ∈ allExprs args, e.Known
  | [], _, _ => List.forall_mem_nil _
  | arg :: args, _, h => by
    cases h with
    | cons harg _ hargs =>
      exact List.forall_mem_append.2 ⟨(HasType.known hwritten harg).1, ArgsFit.known hwritten hargs⟩

end

end Expr

namespace Stmt

/-- A statement with one expression in it. -/
theorem known_singleton (hwritten : Γ.sig.Written) {expr : Expr} {ty : Ty}
    (h : expr.HasType Γ vars ty) : ∀ found ∈ [expr], ∀ e ∈ found.exprs, e.Known :=
  List.forall_mem_singleton.2 (h.known hwritten).1

mutual

/-- No part of an expression in a well-typed statement is a mistake. -/
theorem WellTyped.known (hwritten : Γ.sig.Written) {locals : List SymbolId} : {stmt : Stmt} →
    stmt.WellTyped Γ locals → ∀ s ∈ stmt.stmts, s.Known
  | block span stmts, h => by
    cases h with
    | block hstmts =>
      exact List.forall_mem_cons.2 ⟨List.forall_mem_nil _, ListWellTyped.known hwritten hstmts⟩
  | varDecl span var init, h => by
    cases h with
    | varDecl _ _ _ hinit _ =>
      exact List.forall_mem_singleton.2 (known_singleton hwritten hinit)
  | assign span target value, h => by
    cases h with
    | assign _ _ hvalue _ => exact List.forall_mem_singleton.2 (known_singleton hwritten hvalue)
  | indexAssign span target subscript value, h => by
    cases h with
    | indexAssign _ hsubscript hvalue _ =>
      exact List.forall_mem_singleton.2 (List.forall_mem_cons.2
        ⟨(hsubscript.known hwritten).1, known_singleton hwritten hvalue⟩)
  | call span callee args, h => by
    cases h with
    | call _ hargs =>
      refine List.forall_mem_singleton.2 fun arg harg e hmem => ?_
      exact hargs.known hwritten e (Expr.mem_allExprs.2 ⟨arg, harg, hmem⟩)
  | .return span none, h => List.forall_mem_singleton.2 (List.forall_mem_nil _)
  | .return span (some value), h => by
    cases h with
    | returnValue _ hvalue _ =>
      exact List.forall_mem_singleton.2 (known_singleton hwritten hvalue)
  | ifElse span cond onTrue onFalse, h => by
    cases h with
    | ifElse hcond hTrue hFalse =>
      refine List.forall_mem_cons.2
        ⟨known_singleton hwritten hcond, List.forall_mem_append.2 ⟨WellTyped.known hwritten hTrue.typed, ?_⟩⟩
      exact OptionWellTyped.known hwritten fun stmt hmem => ⟨_, (hFalse stmt hmem).typed⟩
  | .while span cond body, h => by
    cases h with
    | «while» hcond hbody =>
      exact List.forall_mem_cons.2
        ⟨known_singleton hwritten hcond, WellTyped.known hwritten hbody.typed⟩
  | .for span init cond update body, h => by
    cases h with
    | «for» hinit hcond hupdate hbody =>
      refine List.forall_mem_cons.2 ⟨fun expr hmem => ?_, List.forall_mem_append.2
        ⟨List.forall_mem_append.2 ⟨OptionWellTyped.known hwritten fun stmt hmem => ⟨_, hinit stmt hmem⟩,
          OptionWellTyped.known hwritten fun stmt hmem => ⟨_, hupdate stmt hmem⟩⟩,
            WellTyped.known hwritten hbody.typed⟩⟩
      exact ((hcond expr (Option.mem_toList.1 hmem)).known hwritten).1

theorem OptionWellTyped.known (hwritten : Γ.sig.Written) : {stmt : Option Stmt} →
    (∀ s ∈ stmt, ∃ locals, s.WellTyped Γ locals) → ∀ s ∈ optionStmts stmt, s.Known
  | none, _ => List.forall_mem_nil _
  | some stmt, h => by
    obtain ⟨locals, hstmt⟩ := h stmt rfl
    exact WellTyped.known hwritten hstmt

/-- Well-typed statements hold no mistake. -/
theorem ListWellTyped.known (hwritten : Γ.sig.Written) {locals : List SymbolId} : {stmts : List Stmt} →
    ListWellTyped Γ locals stmts → ∀ s ∈ allStmts stmts, s.Known
  | [], _ => List.forall_mem_nil _
  | stmt :: rest, h => by
    cases h with
    | cons hstmt hrest =>
      exact List.forall_mem_append.2 ⟨WellTyped.known hwritten hstmt, ListWellTyped.known hwritten hrest⟩

end

end Stmt

end SmallJava
