import SmallJava.Proofs.Execution.Evaluation
import SmallJava.Proofs.Typing.Values

namespace SmallJava

open Exec

theorem Word.ofBool_inj {a b : Bool} : ofBool a = ofBool b ↔ a = b := by
  cases a <;> cases b <;> decide

namespace Datum

theorem ofWord_inj {a b : Word} : ofWord a = ofWord b ↔ a = b := by
  simp [ofWord, Int32.toInt_inj]

@[simp]
theorem ofWord_beq (a b : Word) : (ofWord a == ofWord b) = (a == b) := by
  rw [Bool.eq_iff_iff, beq_iff_eq, beq_iff_eq, ofWord_inj]

theorem ofWord_ofBool (b : Bool) : ofWord (.ofBool b) = ofBool b := rfl

theorem null_eq_ofWord : null = ofWord (.ofBool false) := rfl

theorem holds_ofWord (word : Word) : (ofWord word).holds = (word != .ofBool false) := by
  unfold holds bne ofBool
  rw [ofWord_beq]

@[simp]
theorem holds_ofBool (b : Bool) : (ofBool b).holds = b := by
  cases b <;> rfl

theorem ofBool_inj {a b : Bool} : ofBool a = ofBool b ↔ a = b :=
  ofWord_inj.trans Word.ofBool_inj

end Datum

/-- A unary operator on a word gives what it gives for words. -/
theorem UnaryOp.apply_ofWord (op : UnaryOp) (word : Word) :
    op.apply (.ofWord word) = pure (.ofWord (op.eval word)) := by
  cases op with
  | not =>
    unfold apply eval Datum.ofBool
    rw [Datum.null_eq_ofWord, Datum.ofWord_beq]
  | neg => simp [apply, eval, Datum.ofWord, Datum.word?]

/-- The machine agrees with the compiler on what words give. -/
theorem BinaryOp.apply_ofWord {op : BinaryOp} {a b word : Word} (heval : op.eval? a b = some word) :
    op.apply (.ofWord a) (.ofWord b) = pure (.ofWord word) := by
  cases op with
  | eq =>
    obtain rfl := Option.some.inj heval
    unfold apply Datum.ofBool
    rw [Datum.ofWord_beq]
  | ne =>
    obtain rfl := Option.some.inj heval
    unfold apply Datum.ofBool bne
    rw [Datum.ofWord_beq]
  | _ => simp only [apply, Datum.word?, Datum.ofWord, Int32.ofInt_toInt, heval]

namespace Expr

variable {sc : Scene} {Γ : Context} {vars : List SymbolId} {env : Valuation} {folding : Bool}
  {known : Dict SymbolId Word}

/-- A logical operator yields its decisive value if the left operand does, and the right operand
    otherwise. -/
theorem eval_logical {annot : Annot} {op : BinaryOp} {left right : Expr}
    (hfamily : op.isLogical = true) :
    (Expr.binary annot op left right).eval sc env = (do
      let d ← left.eval sc env
      if d = .ofBool op.decisive then pure d else right.eval sc env) := by
  rw [eval]
  simp only [hfamily, if_true]

/-- Every other operator is applied to the values of both operands, the left one first. -/
theorem eval_operator {annot : Annot} {op : BinaryOp} {left right : Expr}
    (hfamily : op.isLogical = false) :
    (Expr.binary annot op left right).eval sc env = (do
      let d ← left.eval sc env
      op.apply d (← right.eval sc env)) := by
  rw [eval]
  simp [hfamily]

/-- What is known of an operation with two operands: the decisive value of the first one, what is
    known of the second one, or what the operator gives for both. -/
theorem constant?_binary {annot : Annot} {op : BinaryOp} {left right : Expr} {word : Word}
    (h : (Expr.binary annot op left right).constant? folding known = some word) :
    ∃ a, left.constant? folding known = some a ∧
      ((op.isLogical = true ∧ a = .ofBool op.decisive ∧ word = .ofBool op.decisive) ∨
        (op.isLogical = true ∧ a ≠ .ofBool op.decisive ∧ right.constant? folding known = some word) ∨
          (op.isLogical = false ∧ ∃ b, right.constant? folding known = some b ∧
            op.eval? a b = some word)) := by
  unfold constant? at h
  split at h
  next =>
    cases hleft : left.constant? folding known with
    | none => simp [hleft] at h
    | some a =>
      simp only [hleft] at h
      refine ⟨a, rfl, ?_⟩
      split at h
      next hlogical =>
        split at h
        next heq => exact .inl ⟨hlogical, heq, (Option.some.inj h).symm.trans heq⟩
        next hne => exact .inr (.inl ⟨hlogical, hne, h⟩)
      next hlogical =>
        obtain ⟨b, hright, heval⟩ := Option.bind_eq_some_iff.1 h
        exact .inr (.inr ⟨Bool.eq_false_iff.2 hlogical, b, hright, heval⟩)
  next => cases h

/-- What is known of a choice is what is known of the alternative that is taken. -/
theorem constant?_ternary {annot : Annot} {cond onTrue onFalse : Expr} {word : Word}
    (h : (Expr.ternary annot cond onTrue onFalse).constant? folding known = some word) :
    ∃ c, cond.constant? folding known = some c ∧
      ((c = .ofBool false ∧ onFalse.constant? folding known = some word) ∨
        (c ≠ .ofBool false ∧ onTrue.constant? folding known = some word)) := by
  unfold constant? at h
  split at h
  next =>
    cases hcond : cond.constant? folding known with
    | none => simp [hcond] at h
    | some c =>
      simp only [hcond] at h
      refine ⟨c, rfl, ?_⟩
      split at h
      next heq => exact .inl ⟨heq, h⟩
      next hne => exact .inr ⟨hne, h⟩
  next => cases h

/-- A value that is known in advance is the one that evaluation yields, without an effect. -/
theorem eval_of_constant (hsig : sc.sig = Γ.sig)
    (hkinds : ∀ x word, known.get? x = some word →
      Γ.sig.kind? x = some .localVar ∨ Γ.sig.kind? x = some .param)
    (hknown : ∀ x ∈ vars, ∀ word, known.get? x = some word → env x = .ofWord word)
    (expr : Expr) {word : Word} (htyped : expr.HasValue Γ vars)
    (hconstant : expr.constant? folding known = some word) :
    expr.eval sc env = pure (.ofWord word) := by
  match expr with
  | int annot value =>
    obtain rfl := Option.some.inj hconstant
    rfl
  | bool annot value =>
    obtain rfl := Option.some.inj hconstant
    rfl
  | null annot =>
    obtain rfl := Option.some.inj hconstant
    rfl
  | unary annot op operand =>
    unfold constant? at hconstant
    split at hconstant
    next =>
      obtain ⟨w, hw, rfl⟩ := Option.map_eq_some_iff.1 hconstant
      unfold eval
      rw [eval_of_constant hsig hkinds hknown _ htyped.unary hw, pure_bind, UnaryOp.apply_ofWord]
    next => cases hconstant
  | binary annot op left right =>
    obtain ⟨hleft, hright⟩ := htyped.binary
    obtain ⟨a, ha, hcases⟩ := constant?_binary hconstant
    have heval := eval_of_constant hsig hkinds hknown left hleft ha
    obtain ⟨hlogical, rfl, rfl⟩ | ⟨hlogical, hne, hb⟩ | ⟨hlogical, b, hb, hword⟩ := hcases
    · rw [eval_logical hlogical, heval, pure_bind, if_pos (Datum.ofWord_ofBool _)]
    · have hother : Datum.ofWord a ≠ .ofBool op.decisive := fun heq => hne (Datum.ofWord_inj.1 heq)
      rw [eval_logical hlogical, heval, pure_bind, if_neg hother]
      exact eval_of_constant hsig hkinds hknown right hright hb
    · rw [eval_operator hlogical, heval, pure_bind, eval_of_constant hsig hkinds hknown right hright hb,
        pure_bind, BinaryOp.apply_ofWord hword]
  | ternary annot cond onTrue onFalse =>
    obtain ⟨hcond, hTrue, hFalse⟩ := htyped.ternary
    obtain ⟨c, hc, hcases⟩ := constant?_ternary hconstant
    unfold eval
    rw [eval_of_constant hsig hkinds hknown cond hcond hc, pure_bind, Datum.holds_ofWord]
    obtain ⟨rfl, hword⟩ | ⟨hne, hword⟩ := hcases
    · rw [if_neg (by simp)]
      exact eval_of_constant hsig hkinds hknown onFalse hFalse hword
    · rw [if_pos (by simpa using hne)]
      exact eval_of_constant hsig hkinds hknown onTrue hTrue hword
  | ref annot target =>
    cases target with
    | ident annot name =>
      unfold constant? at hconstant
      split at hconstant
      next =>
        obtain ⟨x, hbound, hword⟩ := Option.bind_eq_some_iff.1 hconstant
        have hkind := hkinds x word hword
        obtain ⟨ty, htarget⟩ := htyped.ref
        have hmem : x ∈ vars := by
          cases htarget with
          | «variable» hbound' hvar _ =>
            obtain rfl := Option.some.inj (hbound'.symm.trans hbound)
            exact hvar
          | ownField hbound' hfield _ =>
            obtain rfl := Option.some.inj (hbound'.symm.trans hbound)
            rw [hfield] at hkind
            obtain hkind | hkind := hkind <;> cases hkind
        rw [← hknown x hmem word hword]
        exact Scene.value_variable hbound (hsig.symm ▸ hkind)
      next => cases hconstant
    | this | member => cases hconstant
  | index _ _ _ | call _ _ _ | newObject _ _ | newArray _ _ _ => cases hconstant

end Expr

end SmallJava
