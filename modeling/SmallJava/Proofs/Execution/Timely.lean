import SmallJava.Proofs.Execution.Evaluation

namespace SmallJava

namespace Exec

variable {α β : Type}

/-- The evaluation does not run out of rounds. -/
def Timely (x : Exec α) : Prop := ∀ S S', x S ≠ .error .timeout S'

theorem timely_of_ok {x : Exec α} (h : ∀ S, ∃ a S', x S = .ok a S') : Timely x := by
  intro S S' hrun
  obtain ⟨a, S₁, hok⟩ := h S
  cases hok.symm.trans hrun

theorem timely_pure (a : α) : Timely (pure a : Exec α) := timely_of_ok fun S => ⟨a, S, rfl⟩

theorem timely_fault (found : Fault) : Timely (fault found : Exec α) := by
  intro S S' hrun
  cases hrun

theorem timely_stuck : Timely (stuck : Exec α) := by
  intro S S' hrun
  cases hrun

/-- Evaluations in a row do not run out of rounds if none of them does. -/
theorem Timely.bind {x : Exec α} {f : α → Exec β} (hx : Timely x) (hf : ∀ a, Timely (f a)) :
    Timely (x >>= f) := by
  intro S S' hrun
  cases hfirst : x S with
  | ok a S₁ => exact hf a S₁ S' ((bind_of_ok hfirst).symm.trans hrun)
  | error stop S₁ =>
    have hsame := (bind_of_error hfirst).symm.trans hrun
    obtain ⟨rfl, rfl⟩ := EStateM.Result.error.inj hsame
    exact hx S _ hfirst

theorem timely_load (place : Datum) : Timely (load place) := by
  cases place with
  | number => exact timely_stuck
  | heap n =>
    refine (timely_of_ok fun S => ⟨S, S, rfl⟩).bind fun S => ?_
    cases Machine.at? S.heap n with
    | some d => exact timely_pure d
    | none => exact timely_stuck

theorem timely_object (d : Datum) : Timely (object d) := by
  unfold object
  split
  next => exact timely_fault _
  next => exact timely_pure d

theorem timely_length (array : Datum) : Timely (length array) := by
  have hobject : Timely (object array) := timely_object array
  exact hobject.bind fun place => timely_load (place.offset (-1))

/-- The place of an array element is found without any rounds. -/
theorem timely_element (array index : Datum) : Timely (element array index) := by
  refine (timely_length array).bind fun length => ?_
  cases index with
  | heap => exact timely_stuck
  | number i =>
    cases length with
    | heap => exact timely_stuck
    | number n =>
      dsimp only
      split
      next => exact timely_pure _
      next => exact timely_fault _

theorem timely_alloc (header : List Datum) (words : Int) : Timely (alloc header words) :=
  timely_of_ok fun _ => ⟨_, _, rfl⟩

theorem timely_newArray (size : Datum) : Timely (newArray size) := by
  cases size with
  | heap => exact timely_stuck
  | number n =>
    unfold newArray
    dsimp only
    split
    next => exact timely_fault _
    next => exact timely_alloc _ _

end Exec

open Exec

theorem UnaryOp.timely_apply (op : UnaryOp) (operand : Datum) : Timely (op.apply operand) := by
  cases op with
  | not => exact timely_pure _
  | neg =>
    unfold apply
    cases operand.word? with
    | some word => exact timely_pure _
    | none => exact timely_stuck

/-- An operator is applied without any rounds. -/
theorem BinaryOp.timely_apply (op : BinaryOp) (left right : Datum) :
    Timely (op.apply left right) := by
  unfold apply
  split
  next => exact timely_pure _
  next => exact timely_pure _
  next =>
    split
    next =>
      split
      next => exact timely_pure _
      next => exact timely_fault _
    next => exact timely_stuck

variable {sc : Scene} {env : Valuation}

/-- The value of a name needs no rounds if that of its owner needs none. -/
theorem Scene.timely_value {owner : Exec Datum} (howner : Timely owner) (name : Ident) :
    Timely (sc.value env owner name) := by
  unfold value
  split
  next => exact timely_stuck
  next =>
    split
    next => exact timely_pure _
    next => exact timely_pure _
    next =>
      split
      next => exact timely_of_ok fun _ => ⟨_, _, rfl⟩
      next =>
        refine howner.bind fun d => ?_
        refine (timely_object d).bind fun _ => ?_
        exact timely_load _
    next => exact howner.bind timely_length
    next => exact timely_stuck

theorem Reference.timely_eval (ref : Reference) : Timely (ref.eval sc env) := by
  induction ref with
  | this => exact timely_pure _
  | ident => exact Scene.timely_value (timely_pure _) _
  | member _ owner _ ih => exact Scene.timely_value ih _

theorem Reference.timely_evalOwner (ref : Reference) : Timely (ref.evalOwner sc env) := by
  cases ref with
  | member _ owner _ => exact owner.timely_eval
  | _ => exact timely_pure _

/-- A call needs no rounds if the invoked methods need none. -/
theorem Scene.timely_call (hinvoke : ∀ m this args, Timely (sc.invoke m this args))
    {owner : Exec Datum} (howner : Timely owner) (binding : Option SymbolId) (args : List Datum) :
    Timely (sc.call owner binding args) := by
  unfold call
  split
  next => exact timely_stuck
  next =>
    split
    next =>
      split
      next => exact hinvoke _ _ _
      next =>
        refine howner.bind fun d => ?_
        refine (timely_object d).bind fun _ => ?_
        exact hinvoke _ _ _
    next => exact timely_stuck

namespace Expr

mutual

/-- An expression has no loops: if the methods that it calls come to an end, so does it. -/
theorem timely_eval (hinvoke : ∀ m this args, Timely (sc.invoke m this args)) :
    (expr : Expr) → Timely (expr.eval sc env)
  | int .. => timely_pure _
  | bool .. => timely_pure _
  | null _ => timely_pure _
  | unary _ op operand => by
    have hoperand := operand.timely_eval hinvoke
    exact hoperand.bind fun d => op.timely_apply d
  | binary _ op left right => by
    have hleft := left.timely_eval hinvoke
    have hright := right.timely_eval hinvoke
    refine hleft.bind fun d => ?_
    split
    next =>
      -- The right operand of a logical operator may be skipped.
      split
      next => exact timely_pure d
      next => exact hright
    next => exact hright.bind fun d' => op.timely_apply d d'
  | ternary _ cond onTrue onFalse => by
    have hcond := cond.timely_eval hinvoke
    have hTrue := onTrue.timely_eval hinvoke
    have hFalse := onFalse.timely_eval hinvoke
    refine hcond.bind fun d => ?_
    split
    next => exact hTrue
    next => exact hFalse
  | ref _ target => target.timely_eval
  | index _ target subscript => by
    have htarget : Timely (target.eval sc env) := target.timely_eval
    have hsubscript := subscript.timely_eval hinvoke
    refine htarget.bind fun array => ?_
    refine hsubscript.bind fun index => ?_
    have hplace : Timely (element array index) := timely_element array index
    exact hplace.bind timely_load
  | call _ callee args => by
    have hargs := timely_evalAll hinvoke args
    refine hargs.bind fun ds => ?_
    have hcall : Timely (sc.call (callee.evalOwner sc env) callee.binding ds) :=
      Scene.timely_call hinvoke callee.timely_evalOwner callee.binding ds
    refine hcall.bind fun result => ?_
    cases result with
    | some d => exact timely_pure d
    | none => exact timely_stuck
  | newObject _ cls => by
    unfold eval
    cases cls.binding with
    | some c => exact timely_alloc _ _
    | none => exact timely_stuck
  | newArray _ _ size => by
    have hsize := size.timely_eval hinvoke
    exact hsize.bind timely_newArray

/-- Arguments are evaluated without any rounds if the invoked methods need none. -/
theorem timely_evalAll (hinvoke : ∀ m this args, Timely (sc.invoke m this args)) :
    (args : List Expr) → Timely (evalAll sc env args)
  | [] => timely_pure _
  | arg :: rest => by
    have harg := arg.timely_eval hinvoke
    have hrest := timely_evalAll hinvoke rest
    refine harg.bind fun d => ?_
    refine hrest.bind fun ds => ?_
    exact timely_pure (d :: ds)

end

end Expr

end SmallJava
