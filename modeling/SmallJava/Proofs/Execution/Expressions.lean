import SmallJava.Proofs.Codegen.Extent
import SmallJava.Proofs.Execution.Constants
import SmallJava.Proofs.Execution.Paths

namespace SmallJava

open Machine Exec

/-- The datum is what is known of the value. -/
def Value.Is (d : Datum) : Value → Prop
  | known word => d = .ofWord word
  | onStack => True

/-- What the code of a value leaves on the stack. -/
def Value.left (d : Datum) : Value → List Datum
  | known _ => []
  | onStack => [d]

/-- What is known of expressions is what they yield, without an effect. -/
def Folding.Faithful (fold : Folding) (sc : Scene) (Γ : Context) (vars : List SymbolId)
    (env : Valuation) : Prop :=
  ∀ (expr : Expr) word, expr.HasValue Γ vars → fold expr = some word →
    expr.eval sc env = pure (.ofWord word)

namespace Expr

section Boolean

variable {Γ : Context} {vars : List SymbolId} {annot : Annot} {op : BinaryOp} {left right : Expr}

theorem HasType.hasValue {expr : Expr} (h : expr.HasType Γ vars .boolean) : expr.HasValue Γ vars :=
  ⟨.boolean, h, Ty.boolean_ne_void⟩

/-- Both operands of a logical operator are of type `boolean`. -/
theorem HasType.boolean_of_logical {τ : Ty}
    (h : (Expr.binary annot op left right).HasType Γ vars τ) (hfamily : op.isLogical = true) :
    left.HasType Γ vars .boolean ∧ right.HasType Γ vars .boolean := by
  cases h with
  | logical _ hleft hright => exact ⟨hleft, hright⟩
  | relational hother | arithmetic hother | equality hother =>
    rw [BinaryOp.isLogical, hother] at hfamily
    cases hfamily

theorem HasValue.logical (h : (Expr.binary annot op left right).HasValue Γ vars)
    (hfamily : op.isLogical = true) :
    left.HasType Γ vars .boolean ∧ right.HasType Γ vars .boolean := by
  obtain ⟨τ, htyped, -⟩ := h
  exact htyped.boolean_of_logical hfamily

theorem HasValue.condition {cond onTrue onFalse : Expr}
    (h : (Expr.ternary annot cond onTrue onFalse).HasValue Γ vars) :
    cond.HasType Γ vars .boolean := by
  obtain ⟨τ, htyped, -⟩ := h
  cases htyped with
  | ternary hcond => exact hcond

theorem HasType.boolean_of_not {operand : Expr}
    (h : (Expr.unary annot .not operand).HasType Γ vars .boolean) :
    operand.HasType Γ vars .boolean := by
  cases h with
  | not hoperand => exact hoperand

end Boolean

variable {im : Image} {act : Activation} {sc : Scene} {Γ : Context} {deadline start : Nat}
  {locals : List SymbolId} {next : Int} {env : Valuation} {fold : Folding}

/-- The right operand is the decisive value, or the left one was. -/
theorem pure_decisive {d : Datum} {decisive : Bool} :
    (if d = .ofBool decisive then pure d else pure (.ofWord (.ofBool decisive)) : Exec Datum) =
      pure (.ofBool decisive) := by
  split
  next heq => rw [heq]
  next => rfl

/-- Both operands are the value that is not decisive, or the left one is the one that is. -/
theorem pure_remaining {o o' decisive : Bool} (hother : o' ≠ decisive) :
    (if Datum.ofBool o = .ofBool decisive then pure (.ofBool o)
      else pure (.ofWord (.ofBool o')) : Exec Datum) = pure (.ofBool o) := by
  split
  next => rfl
  next hne =>
    have hsame : o = o' := by
      have hne := mt Datum.ofBool_inj.2 hne
      cases o <;> cases o' <;> cases decisive <;> simp_all
    rw [hsame, Datum.ofWord_ofBool]

/-- A condition that is known is a truth value. -/
theorem ofBool_of_faithful {vars : List SymbolId} {W : HeapTyping} {S : Store} {t : Nat}
    (hready : sc.Ready Γ vars start W env S t) (hfold : fold.Faithful sc Γ vars env) {expr : Expr}
    {word : Word} (htyped : expr.HasType Γ vars .boolean) (hword : fold expr = some word) :
    word = .ofBool word.isTrue := by
  have hsound := htyped.sound hready.scene hready.env Ty.boolean_ne_void
  rw [hfold expr word htyped.hasValue hword] at hsound
  obtain ⟨W', -, -, b, hb⟩ := (hsound S hready.store).2 _ _ rfl
  obtain rfl := Datum.ofWord_inj.1 hb
  cases b <;> rfl

/-- A condition whose outcome is known has it, without an effect. -/
theorem CondCode.eval_of_known {vars : List SymbolId} {W : HeapTyping} {S : Store} {t : Nat}
    (hready : sc.Ready Γ vars start W env S t) (hfold : fold.Faithful sc Γ vars env) {expr : Expr}
    {when o : Bool} {outcome : Option Bool} {a b target : Nat} :
    expr.CondCode im fold when outcome a b target → outcome = some o →
      expr.HasType Γ vars .boolean → expr.eval sc env = pure (.ofBool o)
  | .not hoperand => by
    intro houtcome htyped
    obtain ⟨o', hoperand', rfl⟩ := Option.map_eq_some_iff.1 houtcome
    rw [eval, hoperand.eval_of_known hready hfold hoperand' htyped.boolean_of_not, pure_bind]
    cases o' <;> rfl
  | .constant hword => by
    intro houtcome htyped
    obtain rfl := Option.some.inj houtcome
    have hbool := ofBool_of_faithful hready hfold htyped hword
    rw [hfold _ _ htyped.hasValue hword]
    exact congrArg (fun word => pure (Datum.ofWord word)) hbool
  | .either .. | .both .. | .test .. => fun houtcome => by cases houtcome

/-- A logical operation as a condition: its left operand jumps if it decides, and the right one is
    evaluated otherwise. -/
theorem follows_logical {vars : List SymbolId} {annot : Annot} {op : BinaryOp} {left right : Expr}
    {when : Bool} {a b c out target : Nat} {W : HeapTyping} {S : Store} {t : Nat} {temps : List Datum}
    (hready : sc.Ready Γ vars start W env S t) (hfamily : op.isLogical = true)
    (htyped : left.HasType Γ vars .boolean)
    (hout : out = if op.decisive = when then target else c)
    (hleft : Follows im.fetch deadline t (act.machine locals env S temps a) (left.eval sc env S)
      fun d S' t' m' => ∃ o : Bool, d = .ofBool o ∧ (o = op.decisive → t < t') ∧
        m' = act.machine locals env S' temps (if o = op.decisive then out else b))
    (hright : ∀ (W' : HeapTyping) S' t', sc.Ready Γ vars start W' env S' t' →
      Follows im.fetch deadline t' (act.machine locals env S' temps b) (right.eval sc env S')
        fun d S'' t'' m' => ∃ o : Bool, d = .ofBool o ∧ (o = when → t' < t'') ∧
          m' = act.machine locals env S'' temps (if o = when then target else c)) :
    Follows im.fetch deadline t (act.machine locals env S temps a)
      ((Expr.binary annot op left right).eval sc env S)
      fun d S' t' m' => ∃ o : Bool, d = .ofBool o ∧ (o = when → t < t') ∧
        m' = act.machine locals env S' temps (if o = when then target else c) := by
  rw [eval_logical hfamily]
  refine hleft.bindReady hready (htyped.sound hready.scene hready.env Ty.boolean_ne_void) ?_
  rintro _ S' t₁ _ W' hle - hready' - ⟨o, rfl, hlater, rfl⟩
  by_cases heq : o = op.decisive
  · rw [if_pos (congrArg Datum.ofBool heq), if_pos heq]
    exact .pure ⟨o, rfl, fun _ => hlater heq, by rw [hout, heq]⟩
  · rw [if_neg (mt Datum.ofBool_inj.1 heq), if_neg heq]
    refine (hright W' S' t₁ hready').mono ?_
    rintro _ _ _ _ - ⟨o', rfl, hlater', rfl⟩
    exact ⟨o', rfl, fun heq => Nat.lt_of_le_of_lt hle (hlater' heq), rfl⟩

section Following

mutual

/-- The code of an expression as a value does what the evaluation does. -/
theorem ValueCode.follows (hhost : act.Hosts im sc Γ deadline start)
    (hframe : im.Frame Γ.params locals next) (hfold : fold.Faithful sc Γ (Γ.params ++ locals) env)
    {expr : Expr} {value : Value} {a b : Nat} {W : HeapTyping} {S : Store} {t : Nat}
    {temps : List Datum} (hready : sc.Ready Γ (Γ.params ++ locals) start W env S t)
    (hfits : b < 0x80000000) :
    expr.ValueCode im fold value a b → expr.HasValue Γ (Γ.params ++ locals) →
      Follows im.fetch deadline t (act.machine locals env S temps a) (expr.eval sc env S)
        fun d S' _ m' => value.Is d ∧ m' = act.machine locals env S' (temps ++ value.left d) b
  | .constant hword => by
    intro htyped
    rw [hfold _ _ htyped hword]
    exact .pure ⟨rfl, by rw [Value.left, List.append_nil]⟩
  | .unary hoperand hop => by
    intro htyped
    rw [eval]
    refine (hoperand.follows hhost hframe hfold hready (by omega) htyped.unary).bind ?_
    rintro d S' t₁ _ - rfl
    exact hop.follows_unary.mono fun v S'' _ _ _ hm => ⟨trivial, hm⟩
  | .binary hfamily hleft hright hop => by
    intro htyped
    have hle := hright.le
    obtain ⟨hleft', hright'⟩ := htyped.binary
    obtain ⟨τ, hleft'', hvoid⟩ := hleft'
    rw [eval_operator hfamily]
    refine (hleft.follows hhost hframe hfold hready (by omega) ⟨τ, hleft'', hvoid⟩).bindReady hready
      (hleft''.sound hready.scene hready.env hvoid) ?_
    rintro d S' t₁ _ W' - - hready' - rfl
    refine (hright.follows hhost hframe hfold hready' (by omega) hright').bind ?_
    rintro d' S'' t₂ _ - rfl
    exact (hop.follows_binary hfamily).mono fun v _ _ _ _ hm => ⟨trivial, hm⟩
  | .leftDecides hfamily hword => by
    intro htyped
    rw [eval_logical hfamily, hfold _ _ htyped.binary.1 hword, pure_bind]
    rw [if_pos (Datum.ofWord_ofBool _)]
    exact .pure ⟨rfl, by rw [Value.left, List.append_nil]⟩
  | .rightRemains hfamily hword hne hright => by
    intro htyped
    rw [eval_logical hfamily, hfold _ _ htyped.binary.1 hword, pure_bind]
    have hother : Datum.ofWord _ ≠ .ofBool _ := fun heq => hne (Datum.ofWord_inj.1 heq)
    rw [if_neg hother]
    exact hright.follows hhost hframe hfold hready hfits htyped.binary.2
  | .rightDecides hfamily hleft hword hpop => by
    intro htyped
    rw [eval_logical hfamily, hfold _ _ htyped.binary.2 hword]
    refine (hleft.follows hhost hframe hfold hready (by omega) htyped.binary.1).bind ?_
    rintro d S' t₁ _ - rfl
    refine .after (hpop.reach_pop rfl) ?_
    rw [pure_decisive]
    exact .pure ⟨rfl, by rw [Value.left, List.append_nil]⟩
  | .leftRemains hfamily hleft hword hne => by
    intro htyped
    obtain ⟨hleft', hright'⟩ := htyped.logical hfamily
    have hbool := ofBool_of_faithful hready hfold hright' hword
    rw [eval_logical hfamily, hfold _ _ hright'.hasValue hword]
    refine (hleft.follows hhost hframe hfold hready hfits hleft'.hasValue).bindReady hready
      (hleft'.sound hready.scene hready.env Ty.boolean_ne_void) ?_
    rintro _ S' t₁ _ W' - - - ⟨o, rfl⟩ rfl
    rw [hbool] at hne ⊢
    rw [pure_remaining fun heq => hne (congrArg Word.ofBool heq)]
    exact .pure ⟨trivial, rfl⟩
  | @ValueCode.logical _ _ _ op _ _ _ _ _ hfamily hleft hshort hright hdone hdecisive => by
    intro htyped
    have hle := hright.le
    obtain ⟨hleft', hright'⟩ := htyped.logical hfamily
    rw [eval_logical hfamily]
    refine (hleft.follows hhost hframe hfold hready (by omega) hleft'.hasValue).bindReady hready
      (hleft'.sound hready.scene hready.env Ty.boolean_ne_void) ?_
    rintro _ S' t₁ _ W' - - hready' ⟨o, rfl⟩ rfl
    refine .after (hshort.reach_jumpIf (Nat.lt_of_succ_lt hfits)) ?_
    by_cases heq : o = op.decisive
    · rw [if_pos heq, if_pos (congrArg Datum.ofBool heq), heq]
      exact .after hdecisive.reach_literal (.pure ⟨trivial, rfl⟩)
    · rw [if_neg heq, if_neg (mt Datum.ofBool_inj.1 heq)]
      refine (hright.follows hhost hframe hfold (hready'.later (Nat.le_succ _)) (by omega)
        hright'.hasValue).next ?_
      rintro d S'' t₂ _ - rfl
      exact ⟨_, _, hdone.reach_jump (by omega), trivial, rfl⟩
  | @ValueCode.choiceKnown _ _ _ _ onTrue onFalse outcome _ _ _ hcond hchosen => by
    intro htyped
    obtain ⟨-, hTrue', hFalse'⟩ := htyped.ternary
    rw [eval, hcond.eval_of_known hready hfold rfl htyped.condition, pure_bind, Datum.holds_ofBool,
      ← apply_ite (eval sc env)]
    refine (hchosen.follows hhost hframe hfold hready hfits ?_).mono fun v _ _ _ _ hm => ⟨trivial, hm⟩
    split
    next => exact hTrue'
    next => exact hFalse'
  | .choice hcond hTrue hdone hFalse => by
    intro htyped
    have hle := hTrue.le
    have hle' := hFalse.le
    obtain ⟨-, hTrue', hFalse'⟩ := htyped.ternary
    rw [eval]
    refine (hcond.follows hhost hframe hfold hready (by omega) (by omega) rfl htyped.condition).bindReady
      hready (htyped.condition.sound hready.scene hready.env Ty.boolean_ne_void) ?_
    rintro _ S' t₁ _ W' - - hready' - ⟨o, rfl, -, rfl⟩
    rw [Datum.holds_ofBool]
    cases o with
    | false =>
      exact (hFalse.follows hhost hframe hfold hready' hfits hFalse').mono
        fun v _ _ _ _ hm => ⟨trivial, hm⟩
    | true =>
      refine (hTrue.follows hhost hframe hfold hready' (by omega) hTrue').next ?_
      rintro d S'' t₂ _ - rfl
      exact ⟨_, _, hdone.reach_jump hfits, trivial, rfl⟩
  | .ref htarget => by
    intro htyped
    obtain ⟨ty, htarget'⟩ := htyped.ref
    rw [eval]
    exact (htarget.follows hhost hframe hready htarget').mono fun v _ _ _ _ hm => ⟨trivial, hm⟩
  | .index htarget hsubscript hload => by
    intro htyped
    obtain ⟨⟨ty, htarget'⟩, hsubscript'⟩ := htyped.index
    rw [eval]
    refine (htarget.follows hhost hframe hready htarget').bindReady hready
      (htarget'.sound hready.scene hready.env) ?_
    rintro array S' t₁ _ W' - - hready' - rfl
    refine (hsubscript.follows hhost hframe hfold hready' (by omega) hsubscript').bind ?_
    rintro index S'' t₂ _ - rfl
    exact hload.follows_arrayref.mono fun v _ _ _ _ hm => ⟨trivial, hm⟩
  | .call hargs hinvoke => by
    intro htyped
    have hle := hinvoke.le
    obtain ⟨m, hcallee, hargs', -⟩ := htyped.call
    have hvoid := hready.scene.voidFree.params m
    rw [eval]
    refine (hargs.follows hhost hframe hfold hready (by omega) hvoid hargs').bindReady hready
      (hargs'.sound hready.scene hready.env hvoid) ?_
    rintro ds S' t₁ _ W' - - hready' hds rfl
    refine (hinvoke.follows hhost hframe hready' hcallee hds).bind ?_
    rintro result S'' t₂ _ - rfl
    cases result with
    | none => exact .stuck
    | some d => exact .pure ⟨trivial, rfl⟩
  | .newObject hbound hslot hheader hsize hnew => by
    intro htyped
    obtain ⟨τ, htyped, -⟩ := htyped
    cases htyped with
    | newObject hbound' hkind =>
      obtain rfl := Option.some.inj (hbound'.symm.trans hbound)
      have hplace := hhost.stores.classes _ _ (hhost.sig ▸ hkind)
      obtain rfl := Option.some.inj (hslot.symm.trans hplace)
      rw [eval, hbound]
      dsimp only
      rw [hready.scene.sig, hhost.sig]
      refine .after hheader.reach_literal (.after hsize.reach_literal ?_)
      exact hnew.follows_newObject.mono fun v _ _ _ _ hm => ⟨trivial, hm⟩
  | .newArray hsize hnew => by
    intro htyped
    rw [eval]
    refine (hsize.follows hhost hframe hfold hready (by omega) htyped.newArray).bind ?_
    rintro d S' t₁ _ - rfl
    exact hnew.follows_newArray.mono fun v _ _ _ _ hm => ⟨trivial, hm⟩

/-- The code that pushes an expression follows its evaluation and leaves the value on top of the
    stack. -/
theorem PushCode.follows (hhost : act.Hosts im sc Γ deadline start)
    (hframe : im.Frame Γ.params locals next) (hfold : fold.Faithful sc Γ (Γ.params ++ locals) env)
    {expr : Expr} {a b : Nat} {W : HeapTyping} {S : Store} {t : Nat}
    {temps : List Datum} (hready : sc.Ready Γ (Γ.params ++ locals) start W env S t)
    (hfits : b < 0x80000000) :
    expr.PushCode im fold a b → expr.HasValue Γ (Γ.params ++ locals) →
      Follows im.fetch deadline t (act.machine locals env S temps a) (expr.eval sc env S)
        fun d S' _ m' => m' = act.machine locals env S' (temps ++ [d]) b
  | .known hvalue hliteral => by
    intro htyped
    refine (hvalue.follows hhost hframe hfold hready (by omega) htyped).next ?_
    rintro d S' t₁ _ - ⟨rfl, rfl⟩
    rw [Value.left, List.append_nil]
    exact ⟨_, _, hliteral.reach_literal, rfl⟩
  | .onStack hvalue => by
    intro htyped
    exact (hvalue.follows hhost hframe hfold hready hfits htyped).mono fun _ _ _ _ _ h => h.2

/-- The code of a condition jumps on one outcome and runs to its end on the other. -/
theorem CondCode.follows (hhost : act.Hosts im sc Γ deadline start)
    (hframe : im.Frame Γ.params locals next) (hfold : fold.Faithful sc Γ (Γ.params ++ locals) env)
    {expr : Expr} {when : Bool} {outcome : Option Bool} {a b target : Nat} {W : HeapTyping}
    {S : Store} {t : Nat} {temps : List Datum}
    (hready : sc.Ready Γ (Γ.params ++ locals) start W env S t) (hfits : b < 0x80000000)
    (htarget : target < 0x80000000) :
    expr.CondCode im fold when outcome a b target → outcome = none →
      expr.HasType Γ (Γ.params ++ locals) .boolean →
        Follows im.fetch deadline t (act.machine locals env S temps a) (expr.eval sc env S)
          fun d S' t' m' => ∃ o : Bool, d = .ofBool o ∧ (o = when → t < t') ∧
            m' = act.machine locals env S' temps (if o = when then target else b)
  | .constant _ => fun hknown => by cases hknown
  | .not hoperand => by
    intro hknown htyped
    rw [eval]
    refine (hoperand.follows hhost hframe hfold hready hfits htarget (Option.map_eq_none_iff.1 hknown)
      htyped.boolean_of_not).bind ?_
    rintro _ S' t₁ _ - ⟨o, rfl, hlater, rfl⟩
    refine .pure ⟨!o, ?_, fun heq => hlater (by rw [← heq, Bool.not_not]), ?_⟩
    · cases o <;> rfl
    · cases o <;> cases when <;> rfl
  | .either hfamily hleft hright => by
    intro _ htyped
    have hle := hright.le
    obtain ⟨hleft', hright'⟩ := htyped.hasValue.logical hfamily
    exact follows_logical hready hfamily hleft' (if_pos rfl).symm
      (hleft.follows hhost hframe hfold hready (by omega) htarget hleft')
      fun _ _ _ hready' => hright.follows hhost hframe hfold hready' hfits htarget hright'
  | .both hfamily hleft hright => by
    intro _ htyped
    have hle := hright.le
    obtain ⟨hleft', hright'⟩ := htyped.hasValue.logical hfamily
    exact follows_logical hready hfamily hleft' (if_neg (by simp)).symm
      (hleft.follows hhost hframe hfold hready (by omega) (by omega) hleft')
      fun _ _ _ hready' => hright.follows hhost hframe hfold hready' hfits htarget hright'
  | .test hvalue hjump => by
    intro _ htyped
    refine ((hvalue.follows hhost hframe hfold hready (by omega) htyped.hasValue).sound
      (htyped.sound hready.scene hready.env Ty.boolean_ne_void) hready.store).next ?_
    rintro _ S' t₁ _ hle ⟨⟨-, rfl⟩, W', -, -, o, rfl⟩
    exact ⟨_, _, hjump.reach_jumpIf htarget, o, rfl, fun _ => Nat.lt_succ_of_le hle, rfl⟩

/-- The code that jumps on a condition follows its evaluation, leaves nothing on the stack and
    arrives where the outcome says. When it jumps, time has passed. -/
theorem JumpCode.follows (hhost : act.Hosts im sc Γ deadline start)
    (hframe : im.Frame Γ.params locals next) (hfold : fold.Faithful sc Γ (Γ.params ++ locals) env)
    {expr : Expr} {when : Bool} {a b target : Nat} {W : HeapTyping}
    {S : Store} {t : Nat} {temps : List Datum}
    (hready : sc.Ready Γ (Γ.params ++ locals) start W env S t) (hfits : b < 0x80000000)
    (htarget : target < 0x80000000) :
    expr.JumpCode im fold when a b target → expr.HasType Γ (Γ.params ++ locals) .boolean →
        Follows im.fetch deadline t (act.machine locals env S temps a) (expr.eval sc env S)
          fun d S' t' m' => ∃ o : Bool, d = .ofBool o ∧ (o = when → t < t') ∧
            m' = act.machine locals env S' temps (if o = when then target else b)
  | .always hcond hjump => by
    intro htyped
    rw [hcond.eval_of_known hready hfold rfl htyped]
    exact .after (hjump.reach_jump htarget)
      (.pure ⟨_, rfl, fun _ => Nat.lt_succ_self t, by rw [if_pos rfl]⟩)
  | .never hcond => by
    intro htyped
    rw [hcond.eval_of_known hready hfold rfl htyped]
    exact .pure ⟨_, rfl, fun heq => by simp at heq, by rw [if_neg (by simp)]⟩
  | .test hcond => by
    intro htyped
    exact hcond.follows hhost hframe hfold hready hfits htarget rfl htyped

/-- The code of arguments follows their evaluation from left to right and leaves all values on the
    stack, in order. -/
theorem ArgsCode.follows (hhost : act.Hosts im sc Γ deadline start)
    (hframe : im.Frame Γ.params locals next) (hfold : fold.Faithful sc Γ (Γ.params ++ locals) env)
    {args : List Expr} {params : List SymbolId} {a b : Nat} {W : HeapTyping} {S : Store} {t : Nat}
    {temps : List Datum} (hready : sc.Ready Γ (Γ.params ++ locals) start W env S t)
    (hfits : b < 0x80000000) (hvoid : ∀ p ∈ params, (Γ.sig.typeOf p).avoidsVoid = true) :
    Expr.ArgsCode im fold args a b → Expr.ArgsFit Γ (Γ.params ++ locals) args params →
      Follows im.fetch deadline t (act.machine locals env S temps a) (evalAll sc env args S)
        fun ds S' _ m' => m' = act.machine locals env S' (temps ++ ds) b
  | .nil => fun _ => .pure (by rw [List.append_nil])
  | .cons harg hrest => by
    intro htyped
    have hle := hrest.le
    cases htyped with
    | cons harg' hfits' hrest' =>
      have hne := hfits'.ne_void (hvoid _ List.mem_cons_self)
      rw [evalAll]
      refine (harg.follows hhost hframe hfold hready (by omega) ⟨_, harg', hne⟩).bindReady hready
        (harg'.sound hready.scene hready.env hne) ?_
      rintro d S' t₁ _ W' - - hready' - rfl
      refine (hrest.follows hhost hframe hfold hready' hfits
        (fun p hmem => hvoid p (List.mem_cons_of_mem _ hmem)) hrest').bind ?_
      rintro ds S'' t₂ _ - rfl
      exact .pure (by simp)

end

end Following

end Expr

end SmallJava
