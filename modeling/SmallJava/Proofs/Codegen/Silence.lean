import SmallJava.Proofs.Codegen.ExprEmission

namespace SmallJava

namespace Gen

variable {α β : Type} {P : α → Prop} {Q : β → Prop}

/-- Whatever the action yields is as described. -/
def Gives (P : α → Prop) (code : Gen α) : Prop :=
  ∀ ⦃s s' : GenState⦄ ⦃a : α⦄, code s = .ok a s' → P a

theorem gives_pure {a : α} (h : P a) : Gives P (pure a : Gen α) := by
  intro s s' b hrun
  obtain ⟨rfl, -⟩ := pure_eq_ok_iff.1 hrun
  exact h

theorem gives_bind {code : Gen α} {next : α → Gen β} (hnext : ∀ a, Gives Q (next a)) :
    Gives Q (code >>= next) := by
  intro s s' b hrun
  obtain ⟨a, s₁, -, hrest⟩ := bind_eq_ok_iff.1 hrun
  exact hnext a hrest

/-- What is computed is on the stack. -/
theorem gives_onStack {code : Gen α} :
    Gives (· = .onStack) (do let _ ← code; pure .onStack : Gen Value) :=
  gives_bind fun _ => gives_pure rfl

theorem gives_unary {op : UnaryOp} {operand : Gen Unit} : Gives (· = .onStack) (unary op operand) :=
  gives_bind fun _ => gives_onStack

theorem gives_binary {op : BinaryOp} {left right : Gen Unit} :
    Gives (· = .onStack) (binary op left right) := by
  refine gives_bind fun _ => ?_
  refine gives_bind fun _ => ?_
  exact gives_onStack

theorem gives_ternary {cond : Bool → Gen Cond} {onTrue onFalse : Gen Unit} :
    Gives (· = .onStack) (ternary cond onTrue onFalse) :=
  gives_bind fun _ => gives_onStack

theorem gives_element {target : Reference} {subscript : Gen Unit} :
    Gives (· = .onStack) (element target subscript) := by
  refine gives_bind fun _ => ?_
  refine gives_bind fun _ => ?_
  exact gives_onStack

theorem gives_newObject {cls : Ident} : Gives (· = .onStack) (newObject cls) := by
  refine gives_bind fun _ => ?_
  refine gives_bind fun _ => ?_
  refine gives_bind fun _ => ?_
  refine gives_bind fun _ => ?_
  exact gives_onStack

theorem gives_newArray {size : Gen Unit} : Gives (· = .onStack) (newArray size) :=
  gives_bind fun _ => gives_onStack

/-- A value on the stack is tested by a jump. -/
theorem Gives.jumpOn {when : Bool} {code : Gen Value} (hcode : Gives (· = .onStack) code) :
    Gives (fun cond => cond.outcome? = none) (jumpOn when code) := by
  intro s s' cond hrun
  obtain ⟨value, s₁, hvalue, hrun⟩ := bind_eq_ok_iff.1 hrun
  obtain rfl := hcode hvalue
  obtain ⟨label, s₂, -, hrun⟩ := bind_eq_ok_iff.1 hrun
  obtain ⟨rfl, -⟩ := pure_eq_ok_iff.1 hrun
  rfl

/-- A chain of conditions never settles an outcome by itself. -/
theorem gives_chain {op : BinaryOp} {left right : Bool → Gen Cond} {when : Bool} :
    Gives (fun cond => cond.outcome? = none) (chain op left right when) := by
  unfold chain
  -- The conditions of both operands come with their jumps, and one side may patch its own.
  split
  next =>
    refine gives_bind fun _ => ?_
    refine gives_bind fun _ => ?_
    refine gives_bind fun _ => ?_
    refine gives_bind fun _ => ?_
    exact gives_pure rfl
  next =>
    refine gives_bind fun _ => ?_
    refine gives_bind fun _ => ?_
    refine gives_bind fun _ => ?_
    refine gives_bind fun _ => ?_
    refine gives_bind fun _ => ?_
    exact gives_pure rfl

end Gen

namespace Expr

open Gen

variable {site : Site} {when : Bool}

/-- No code is generated for a condition whose outcome is known. -/
def SettledBy (site : Site) (when : Bool) (expr : Expr) (code : Gen Cond) : Prop :=
  ∀ ⦃s s' : GenState⦄ ⦃outcome : Bool⦄, code s = .ok (.known outcome) s' →
    s' = s ∧ ∀ (im : Image) (a t : Nat),
      expr.CondCode im (site.fold s.known) when (some outcome) a a t

theorem settledBy_open {expr : Expr} {code : Gen Cond}
    (hcode : Gives (fun cond => cond.outcome? = none) code) : SettledBy site when expr code :=
  fun _ _ _ hrun => by cases hcode hrun

theorem settledBy_literal {expr : Expr} {word : Word} (hword : ∀ known, site.fold known expr = some word) :
    SettledBy site when expr (pure (.known word.isTrue)) := by
  intro s s' outcome hrun
  obtain ⟨hknown, rfl⟩ := pure_eq_ok_iff.1 hrun
  obtain rfl := Cond.known.inj hknown
  exact ⟨rfl, fun _ _ _ => .constant (hword s.known)⟩

/-- A condition with a known value is settled by it, and any other by its code. -/
theorem SettledBy.unlessKnown {expr : Expr} {code : Gen Cond} (hcode : SettledBy site when expr code) :
    SettledBy site when expr (do
      match ← constantAt site expr with
      | some word => pure (.known word.isTrue)
      | none => code) := by
  intro s s' outcome hrun
  obtain ⟨found, _, hconstant, hrun⟩ := bind_eq_ok_iff.1 hrun
  obtain ⟨hfold, rfl⟩ := constantAt_eq_ok_iff.1 hconstant
  cases found with
  | none => exact hcode hrun
  | some word =>
    obtain ⟨hknown, rfl⟩ := pure_eq_ok_iff.1 hrun
    obtain rfl := Cond.known.inj hknown
    exact ⟨rfl, fun _ _ _ => .constant hfold⟩

/-- Negation settles its outcome where the operand does. -/
theorem SettledBy.not {annot : Annot} {operand : Expr} {code : Gen Cond}
    (hcode : SettledBy site (!when) operand code) :
    SettledBy site when (.unary annot .not operand) (Cond.negate <$> code) := by
  intro s s' outcome hrun
  obtain ⟨found, hfound, hnegate⟩ := map_eq_ok_iff.1 hrun
  cases found with
  | jumps labels => cases hnegate
  | known outcome' =>
    obtain rfl := Cond.known.inj hnegate
    obtain ⟨hsame, hoperand⟩ := hcode hfound
    exact ⟨hsame, fun im a t => .not (hoperand im a t)⟩

/-- Where the outcome of a condition is known, the generator does nothing. -/
theorem genCond_settledBy (site : Site) : (expr : Expr) → (when : Bool) →
    SettledBy site when expr (expr.genCond site when)
  | int .., _ | null _, _ => by
    unfold genCond
    exact (settledBy_literal fun _ => rfl).unlessKnown
  | bool annot value, when => by
    have hvalue : value = (Word.ofBool value).isTrue := by cases value <;> rfl
    have hcode : SettledBy site when (bool annot value) (pure (.known (Word.ofBool value).isTrue)) :=
      settledBy_literal fun _ => rfl
    rw [← hvalue] at hcode
    unfold genCond
    exact hcode.unlessKnown
  | unary _ .not operand, when => by
    unfold genCond
    exact (genCond_settledBy site operand !when).not.unlessKnown
  | unary _ .neg _, _ => by
    unfold genCond
    exact (settledBy_open gives_unary.jumpOn).unlessKnown
  | binary _ op _ _, _ => by
    unfold genCond
    refine SettledBy.unlessKnown (settledBy_open ?_)
    dsimp only
    split
    · exact gives_chain
    · exact gives_binary.jumpOn
  | ternary .., _ => by
    unfold genCond
    exact (settledBy_open gives_ternary.jumpOn).unlessKnown
  | ref .., _ | call .., _ => by
    unfold genCond
    exact (settledBy_open gives_onStack.jumpOn).unlessKnown
  | index .., _ => by
    unfold genCond
    exact (settledBy_open gives_element.jumpOn).unlessKnown
  | newObject .., _ => by
    unfold genCond
    exact (settledBy_open gives_newObject.jumpOn).unlessKnown
  | newArray .., _ => by
    unfold genCond
    exact (settledBy_open gives_newArray.jumpOn).unlessKnown

end Expr

end SmallJava
