import SmallJava.Proofs.Codegen.Steps
import SmallJava.Proofs.Execution.Knowledge

namespace SmallJava

/-- What an operator gives for two numbers, before that is cut to a word. Quotients are cut towards
    zero, and there is none by zero; 1 and 0 stand for the outcomes of comparisons. The logical
    operators are not for numbers. -/
def BinaryOp.integer? (op : BinaryOp) (a b : Int) : Option Int :=
  match op with
  | .or | .and => none
  | .eq => some (if a = b then 1 else 0)
  | .ne => some (if a ≠ b then 1 else 0)
  | .lt => some (if a < b then 1 else 0)
  | .le => some (if a ≤ b then 1 else 0)
  | .gt => some (if b < a then 1 else 0)
  | .ge => some (if b ≤ a then 1 else 0)
  | .add => some (a + b)
  | .sub => some (a - b)
  | .mul => some (a * b)
  | .div => if b = 0 then none else some (a.tdiv b)
  | .mod => if b = 0 then none else some (a.tmod b)

namespace Word

theorem ofInt_ite (p : Prop) [Decidable p] : Int32.ofInt (if p then 1 else 0) = ofBool (decide p) := by
  by_cases hp : p <;> simp [hp, ofBool]

theorem ofInt_tdiv_toInt (a b : Word) : Int32.ofInt (a.toInt.tdiv b.toInt) = a / b := by
  rw [Int32.ofInt_tdiv (Int32.minValue_le_toInt a) (Int32.toInt_le a)
    (Int32.minValue_le_toInt b) (Int32.toInt_le b), Int32.ofInt_toInt, Int32.ofInt_toInt]

theorem ofInt_tmod_toInt (a b : Word) : Int32.ofInt (a.toInt.tmod b.toInt) = a % b := by
  rw [Int32.ofInt_tmod (Int32.minValue_le_toInt a) (Int32.toInt_le a)
    (Int32.minValue_le_toInt b) (Int32.toInt_le b), Int32.ofInt_toInt, Int32.ofInt_toInt]

end Word

/-- Folding an operator on numbers is reckoning with integers and then cutting to a word. -/
theorem BinaryOp.eval?_eq_integer {op : BinaryOp} (hlogical : op.isLogical = false) (a b : Word) :
    op.eval? a b = (op.integer? a.toInt b.toInt).map Int32.ofInt := by
  have hzero : b.toInt = 0 ↔ b = 0 := by rw [← Int32.toInt_zero, Int32.toInt_inj]
  cases op with
  | or | and => cases hlogical
  | eq | ne =>
    have hsame : (a == b) = decide (a.toInt = b.toInt) := by simp [Int32.toInt_inj, Bool.beq_eq_decide_eq]
    simp only [eval?, integer?, bne, hsame, Option.map_some, Word.ofInt_ite, ne_eq, decide_not]
  | lt | le | gt | ge =>
    simp [eval?, integer?, Word.ofInt_ite, Int32.lt_iff_toInt_lt, Int32.le_iff_toInt_le]
  | add | sub | mul => simp [eval?, integer?]
  | div =>
    by_cases hb : b = 0
    · simp [eval?, integer?, hb]
    · simp [eval?, integer?, hb, hzero, Word.ofInt_tdiv_toInt]
  | mod =>
    by_cases hb : b = 0
    · simp [eval?, integer?, hb]
    · simp [eval?, integer?, hb, hzero, Word.ofInt_tmod_toInt]

/-- What an operator gives for two words is what it gives for the numbers, cut to a word. -/
theorem BinaryOp.eval?_of_integer {op : BinaryOp} {a b : Word} {n : Int}
    (h : op.integer? a.toInt b.toInt = some n) :
    op.isLogical = false ∧ op.eval? a b = some (.ofInt n) := by
  have hlogical : op.isLogical = false := by
    cases op with
    | or | and => cases h
    | _ => rfl
  exact ⟨hlogical, by rw [eval?_eq_integer hlogical, h, Option.map_some]⟩

theorem UnaryOp.eval_not (b : Bool) : UnaryOp.not.eval (.ofBool b) = .ofBool !b := by
  cases b <;> rfl

theorem UnaryOp.eval_neg (word : Word) : UnaryOp.neg.eval word = .ofInt (-word.toInt) := by
  rw [Int32.ofInt_neg, Int32.ofInt_toInt]
  rfl

theorem Ty.Fits.eq_boolean {found expected : Ty} (h : found.Fits expected)
    (hexpected : expected = .boolean) : found = .boolean := by
  cases h with
  | same => exact hexpected
  | nullObject | nullArray => cases hexpected

/-- The outcome of a comparison is a truth value. -/
theorem BinaryOp.eval?_comparison {op : BinaryOp} {a b word : Word}
    (hfamily : op.family = .relational ∨ op.family = .equality) (heval : op.eval? a b = some word) :
    ∃ c, word = .ofBool c := by
  cases op with
  | eq | ne | lt | le | gt | ge => exact ⟨_, (Option.some.inj heval).symm⟩
  | _ => obtain hfamily | hfamily := hfamily <;> cases hfamily

/-- Variables of type `boolean` hold truth values. -/
def Context.Truthful (Γ : Context) (vars : List SymbolId) (env : Valuation) : Prop :=
  ∀ x ∈ vars, Γ.sig.typeOf x = .boolean → ∃ b, env x = .ofBool b

namespace Expr

/-- Evaluation of an expression by its meaning alone: operators reckon with integers and wrap around,
    the logical operators and the choice evaluate what they need. There is no rule for a call, for a
    new object or array, for what is read from an object, an array or a static field, and none for a
    division by zero. -/
inductive Plain (sig : Signature) (env : Valuation) : Expr → Word → Prop
  | int {annot value} : Plain sig env (.int annot value) value
  | bool {annot value} : Plain sig env (.bool annot value) (.ofBool value)
  | null {annot} : Plain sig env (.null annot) .null
  | variable {annot place name x word} (hbound : name.binding = some x)
      (hkind : sig.kind? x = some .localVar ∨ sig.kind? x = some .param)
      (hvalue : env x = .ofWord word) : Plain sig env (.ref annot (.ident place name)) word
  | not {annot operand b} (hoperand : Plain sig env operand (.ofBool b)) :
      Plain sig env (.unary annot .not operand) (.ofBool !b)
  | neg {annot operand word} (hoperand : Plain sig env operand word) :
      Plain sig env (.unary annot .neg operand) (.ofInt (-word.toInt))
  | andFalse {annot left right} (hleft : Plain sig env left (.ofBool false)) :
      Plain sig env (.binary annot .and left right) (.ofBool false)
  | andTrue {annot left right b} (hleft : Plain sig env left (.ofBool true))
      (hright : Plain sig env right (.ofBool b)) :
      Plain sig env (.binary annot .and left right) (.ofBool b)
  | orTrue {annot left right} (hleft : Plain sig env left (.ofBool true)) :
      Plain sig env (.binary annot .or left right) (.ofBool true)
  | orFalse {annot left right b} (hleft : Plain sig env left (.ofBool false))
      (hright : Plain sig env right (.ofBool b)) :
      Plain sig env (.binary annot .or left right) (.ofBool b)
  | operator {annot op left right a b n} (hleft : Plain sig env left a)
      (hright : Plain sig env right b) (hnumber : op.integer? a.toInt b.toInt = some n) :
      Plain sig env (.binary annot op left right) (.ofInt n)
  | onTrue {annot cond onTrue onFalse word} (hcond : Plain sig env cond (.ofBool true))
      (hword : Plain sig env onTrue word) : Plain sig env (.ternary annot cond onTrue onFalse) word
  | onFalse {annot cond onTrue onFalse word} (hcond : Plain sig env cond (.ofBool false))
      (hword : Plain sig env onFalse word) : Plain sig env (.ternary annot cond onTrue onFalse) word

/-- The expression is the literal of a word. -/
inductive Literal : Expr → Word → Prop
  | int {annot value} : Literal (.int annot value) value
  | bool {annot value} : Literal (.bool annot value) (.ofBool value)
  | null {annot} : Literal (.null annot) .null

variable {sc : Scene} {Γ : Context} {vars : List SymbolId} {env : Valuation} {folding : Bool}
  {known : Dict SymbolId Word} {sig : Signature} {expr : Expr} {word : Word}

/-- What evaluates plainly evaluates to the same value in any state, and changes none. -/
theorem Plain.eval (h : expr.Plain sig env word) (hsig : sc.sig = sig) :
    expr.eval sc env = pure (.ofWord word) := by
  induction h with
  | int | bool | null => rfl
  | «variable» hbound hkind hvalue =>
    rw [← hvalue]
    exact Scene.value_variable hbound (hsig.symm ▸ hkind)
  | not _ ih =>
    unfold Expr.eval
    rw [ih, pure_bind, UnaryOp.apply_ofWord, UnaryOp.eval_not]
  | neg _ ih =>
    unfold Expr.eval
    rw [ih, pure_bind, UnaryOp.apply_ofWord, UnaryOp.eval_neg]
  | andFalse _ ih =>
    rw [eval_logical rfl, ih, pure_bind]
    exact if_pos rfl
  | orTrue _ ih =>
    rw [eval_logical rfl, ih, pure_bind]
    exact if_pos rfl
  | andTrue _ _ ih ih' | orFalse _ _ ih ih' =>
    rw [eval_logical rfl, ih, pure_bind, if_neg (by decide), ih']
  | operator _ _ hnumber ih ih' =>
    obtain ⟨hlogical, heval⟩ := BinaryOp.eval?_of_integer hnumber
    rw [eval_operator hlogical, ih, pure_bind, ih', pure_bind, BinaryOp.apply_ofWord heval]
  | onTrue _ _ ih ih' =>
    unfold Expr.eval
    rw [ih, pure_bind, if_pos (by decide), ih']
  | onFalse _ _ ih ih' =>
    unfold Expr.eval
    rw [ih, pure_bind, if_neg (by decide), ih']

section Rules

variable {annot : Annot} {op : BinaryOp} {left right : Expr} {a b : Word} {c : Bool}

theorem Plain.settled (hlogical : op.isLogical = true)
    (hleft : left.Plain sig env (.ofBool op.decisive)) :
    (Expr.binary annot op left right).Plain sig env (.ofBool op.decisive) := by
  cases op with
  | or => exact .orTrue hleft
  | and => exact .andFalse hleft
  | _ => cases hlogical

theorem Plain.unsettled (hlogical : op.isLogical = true)
    (hleft : left.Plain sig env (.ofBool !op.decisive)) (hright : right.Plain sig env (.ofBool c)) :
    (Expr.binary annot op left right).Plain sig env (.ofBool c) := by
  cases op with
  | or => exact .orFalse hleft hright
  | and => exact .andTrue hleft hright
  | _ => cases hlogical

theorem Plain.of_eval (hlogical : op.isLogical = false) (hleft : left.Plain sig env a)
    (hright : right.Plain sig env b) (heval : op.eval? a b = some word) :
    (Expr.binary annot op left right).Plain sig env word := by
  rw [BinaryOp.eval?_eq_integer hlogical] at heval
  obtain ⟨n, hnumber, rfl⟩ := Option.map_eq_some_iff.1 heval
  exact .operator hleft hright hnumber

/-- The operands of an operator that is not logical have types, and an operator with a truth value
    is a comparison. -/
theorem HasType.operands {τ : Ty} (h : (Expr.binary annot op left right).HasType Γ vars τ)
    (hlogical : op.isLogical = false) :
    (∃ τ, left.HasType Γ vars τ) ∧ (∃ τ, right.HasType Γ vars τ) ∧
      (τ = .boolean → op.family = .relational ∨ op.family = .equality) := by
  cases h with
  | logical hfamily => simp [BinaryOp.isLogical, hfamily] at hlogical
  | relational hfamily hleft hright => exact ⟨⟨_, hleft⟩, ⟨_, hright⟩, fun _ => .inl hfamily⟩
  | arithmetic _ hleft hright => exact ⟨⟨_, hleft⟩, ⟨_, hright⟩, nofun⟩
  | equality hfamily hleft hright => exact ⟨⟨_, hleft⟩, ⟨_, hright⟩, fun _ => .inr hfamily⟩

end Rules

/-- Without folding, only literals are known. -/
theorem literal_of_constant (h : expr.constant? false known = some word) : expr.Literal word := by
  cases expr with
  | int =>
    obtain rfl := Option.some.inj h
    exact .int
  | bool =>
    obtain rfl := Option.some.inj h
    exact .bool
  | null =>
    obtain rfl := Option.some.inj h
    exact .null
  | ref _ target => cases target <;> cases h
  | _ => cases h

/-- What is known of an expression in advance is its plain value, and a truth value if the expression
    is `boolean`. -/
theorem plain_of_constant (hknows : Γ.Knows vars env known) (htruthful : Γ.Truthful vars env)
    (expr : Expr) {word : Word} {τ : Ty} (htyped : expr.HasType Γ vars τ)
    (hconstant : expr.constant? folding known = some word) :
    expr.Plain Γ.sig env word ∧ (τ = .boolean → ∃ b, word = .ofBool b) := by
  match expr with
  | int annot value =>
    obtain rfl := Option.some.inj hconstant
    cases htyped
    exact ⟨.int, nofun⟩
  | bool annot value =>
    obtain rfl := Option.some.inj hconstant
    exact ⟨.bool, fun _ => ⟨value, rfl⟩⟩
  | null annot =>
    obtain rfl := Option.some.inj hconstant
    cases htyped
    exact ⟨.null, nofun⟩
  | unary annot op operand =>
    unfold constant? at hconstant
    split at hconstant
    next =>
      obtain ⟨w, hw, rfl⟩ := Option.map_eq_some_iff.1 hconstant
      cases htyped with
      | not hoperand =>
        obtain ⟨hplain, hbool⟩ := plain_of_constant hknows htruthful operand hoperand hw
        obtain ⟨b, rfl⟩ := hbool rfl
        rw [UnaryOp.eval_not]
        exact ⟨.not hplain, fun _ => ⟨_, rfl⟩⟩
      | neg hoperand =>
        obtain ⟨hplain, -⟩ := plain_of_constant hknows htruthful operand hoperand hw
        rw [UnaryOp.eval_neg]
        exact ⟨.neg hplain, nofun⟩
    next => cases hconstant
  | binary annot op left right =>
    obtain ⟨a, ha, hcases⟩ := constant?_binary hconstant
    obtain ⟨hlogical, rfl, rfl⟩ | ⟨hlogical, hne, hb⟩ | ⟨hlogical, b, hb, heval⟩ := hcases
    · obtain ⟨hleft, -⟩ := htyped.boolean_of_logical hlogical
      obtain ⟨hplain, -⟩ := plain_of_constant hknows htruthful left hleft ha
      exact ⟨.settled hlogical hplain, fun _ => ⟨_, rfl⟩⟩
    · obtain ⟨hleft, hright⟩ := htyped.boolean_of_logical hlogical
      obtain ⟨hplain, hbool⟩ := plain_of_constant hknows htruthful left hleft ha
      obtain ⟨hplain', hbool'⟩ := plain_of_constant hknows htruthful right hright hb
      obtain ⟨c, rfl⟩ := hbool rfl
      obtain ⟨c', rfl⟩ := hbool' rfl
      obtain rfl : c = !op.decisive := Bool.eq_not_of_ne fun heq => hne (heq ▸ rfl)
      exact ⟨.unsettled hlogical hplain hplain', fun _ => ⟨_, rfl⟩⟩
    · obtain ⟨⟨_, hleft⟩, ⟨_, hright⟩, hfamily⟩ := htyped.operands hlogical
      obtain ⟨hplain, -⟩ := plain_of_constant hknows htruthful left hleft ha
      obtain ⟨hplain', -⟩ := plain_of_constant hknows htruthful right hright hb
      exact ⟨.of_eval hlogical hplain hplain' heval,
        fun hτ => BinaryOp.eval?_comparison (hfamily hτ) heval⟩
  | ternary annot cond onTrue onFalse =>
    obtain ⟨c, hc, hcases⟩ := constant?_ternary hconstant
    cases htyped with
    | ternary hcond hTrue hFalse hfits hfits' =>
      obtain ⟨hplain, hbool⟩ := plain_of_constant hknows htruthful cond hcond hc
      obtain ⟨b, rfl⟩ := hbool rfl
      obtain ⟨hb, hword⟩ | ⟨hb, hword⟩ := hcases
      · obtain rfl : b = false := Word.ofBool_inj.1 hb
        obtain ⟨hplain', hbool'⟩ := plain_of_constant hknows htruthful onFalse hFalse hword
        exact ⟨.onFalse hplain hplain', fun hτ => hbool' (hfits'.eq_boolean hτ)⟩
      · obtain rfl : b = true := (Bool.eq_false_or_eq_true b).resolve_right fun heq => hb (heq ▸ rfl)
        obtain ⟨hplain', hbool'⟩ := plain_of_constant hknows htruthful onTrue hTrue hword
        exact ⟨.onTrue hplain hplain', fun hτ => hbool' (hfits.eq_boolean hτ)⟩
  | ref annot target =>
    cases target with
    | ident place name =>
      unfold constant? at hconstant
      split at hconstant
      next =>
        obtain ⟨x, hbound, hword⟩ := Option.bind_eq_some_iff.1 hconstant
        have hkind := hknows.kinds x word hword
        cases htyped with
        | ref htarget =>
          cases htarget with
          | «variable» hbound' hvar _ =>
            cases hbound'.symm.trans hbound
            have hvalue := hknows.values x hvar word hword
            refine ⟨.variable hbound hkind hvalue, fun hτ => ?_⟩
            obtain ⟨b, hb⟩ := htruthful x hvar hτ
            exact ⟨b, Datum.ofWord_inj.1 (hvalue.symm.trans hb)⟩
          | ownField hbound' hfield _ =>
            obtain rfl := Option.some.inj (hbound'.symm.trans hbound)
            rw [hfield] at hkind
            obtain hkind | hkind := hkind <;> cases hkind
      next => cases hconstant
    | this | member => cases hconstant
  | index _ _ _ | call _ _ _ | newObject _ _ | newArray _ _ _ => cases hconstant

/-- A value that the generator knows in advance is the one that the expression evaluates to by its
    meaning alone, so without a call, an allocation, an access to the heap or a fault, whatever the
    object, the methods and the store around it; it is 0 or 1 if the expression is `boolean`. Looking
    for it changes nothing, and without folding there is one for literals only. -/
theorem plain_of_constantAt {site : Site} {expr : Expr} {word : Word} {g g' : GenState}
    (hrun : Gen.constantAt site expr g = .ok (some word) g') :
    g' = g ∧ (site.folding = false → expr.Literal word) ∧
      ∀ {Γ : Context} {vars : List SymbolId} {env : Valuation} {τ : Ty},
        expr.HasType Γ vars τ → Γ.Knows vars env (site.relies g.known) → Γ.Truthful vars env →
          expr.Plain Γ.sig env word ∧
            (∀ (sc : Scene) S, sc.sig = Γ.sig → expr.eval sc env S = .ok (.ofWord word) S) ∧
            (τ = .boolean → word = 0 ∨ word = 1) := by
  obtain ⟨hword, rfl⟩ := Gen.constantAt_eq_ok_iff.1 hrun
  unfold Site.fold at hword
  refine ⟨rfl, fun hfolding => ?_, fun htyped hknows htruthful => ?_⟩
  · rw [hfolding] at hword
    exact literal_of_constant hword
  · obtain ⟨hplain, hbool⟩ := plain_of_constant hknows htruthful expr htyped hword
    refine ⟨hplain, fun sc S hsig => ?_, fun hτ => ?_⟩
    · rw [hplain.eval hsig]
      rfl
    · obtain ⟨b, rfl⟩ := hbool hτ
      cases b with
      | false => exact .inl rfl
      | true => exact .inr rfl

/-- `ready && 12 / x < 3 ? -x : 1 / 0`, for an `int` and a `boolean`. -/
def guardedQuotient (x ready : SymbolId) : Expr :=
  let read (ty : Ty) (x : SymbolId) : Expr :=
    .ref { ty := some ty } (.ident {} { name := "", binding := some x })
  let number (n : Word) : Expr := .int { ty := some .int } n
  let quotient (a b : Expr) : Expr := .binary { ty := some .int } .div a b
  let truth (op : BinaryOp) (a b : Expr) : Expr := .binary { ty := some .boolean } op a b
  .ternary { ty := some .int }
    (truth .and (read .boolean ready) (truth .lt (quotient (number 12) (read .int x)) (number 3)))
    (.unary { ty := some .int } .neg (read .int x)) (quotient (number 1) (number 0))

/-- With 6 and `true` the value is -6. The division by zero is in the branch that is not taken. -/
theorem guardedQuotient_plain :
    let sig : Signature := ⟨fun _ => some .localVar, fun x => if x = ⟨0⟩ then .int else .boolean⟩
    let env : Valuation := fun x => if x = ⟨0⟩ then .ofWord 6 else .ofBool true
    (guardedQuotient ⟨0⟩ ⟨1⟩).Plain sig env (-6) := by
  intro sig env
  let Γ : Context := ⟨sig, ⟨2⟩, true, .void, []⟩
  let known : Dict SymbolId Word := .ofList [(⟨0⟩, 6), (⟨1⟩, 1)]
  have hvalue (x : SymbolId) (hx : x ∈ [⟨0⟩, ⟨1⟩]) :
      (Reference.ident {} { name := "", binding := some x }).Value Γ [⟨0⟩, ⟨1⟩] (sig.typeOf x) :=
    .variable rfl hx (.inl rfl)
  have htyped : (guardedQuotient ⟨0⟩ ⟨1⟩).HasType Γ [⟨0⟩, ⟨1⟩] .int :=
    .ternary
      (.logical rfl (.ref (hvalue ⟨1⟩ (by decide)) rfl)
        (.relational rfl (.arithmetic rfl (.int rfl) (.ref (hvalue ⟨0⟩ (by decide)) rfl) rfl)
          (.int rfl) rfl) rfl)
      (.neg (.ref (hvalue ⟨0⟩ (by decide)) rfl) rfl) (.arithmetic rfl (.int rfl) (.int rfl) rfl)
      .same .same rfl
  have hknows : Γ.Knows [⟨0⟩, ⟨1⟩] env known := by
    refine ⟨fun _ _ _ => .inl rfl, fun y hy word hword => ?_⟩
    obtain rfl | rfl : y = ⟨0⟩ ∨ y = ⟨1⟩ := by simpa using hy
    · obtain rfl := Option.some.inj hword
      rfl
    · obtain rfl := Option.some.inj hword
      rfl
  have htruthful : Γ.Truthful [⟨0⟩, ⟨1⟩] env := by
    intro y hy hbool
    obtain rfl | rfl : y = ⟨0⟩ ∨ y = ⟨1⟩ := by simpa using hy
    · cases hbool
    · exact ⟨true, rfl⟩
  have hrun : Gen.constantAt { folding := true, argCount := 0 } (guardedQuotient ⟨0⟩ ⟨1⟩)
      { table := {}, known } = .ok (some (-6)) { table := {}, known } :=
    Gen.constantAt_eq_ok_iff.2 ⟨by decide +kernel, rfl⟩
  obtain ⟨-, -, hplain⟩ := plain_of_constantAt hrun
  exact (hplain htyped hknows htruthful).1

end Expr

end SmallJava
