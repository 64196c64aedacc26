import SmallJava.Proofs.Execution.Evaluation

namespace SmallJava

namespace Exec

variable {α β : Type}

/-- The first evaluation is the second one, unless it is cut short because it runs out of rounds. -/
def CutShort (x y : Exec α) : Prop := ∀ S, (∃ S', x S = .error .timeout S') ∨ y S = x S

theorem CutShort.refl (x : Exec α) : CutShort x x := fun _ => .inr rfl

/-- Evaluations in a row are cut short only where one of them is. -/
theorem CutShort.bind {x y : Exec α} {f g : α → Exec β} (h : CutShort x y)
    (hf : ∀ a, CutShort (f a) (g a)) : CutShort (x >>= f) (y >>= g) := by
  intro S
  obtain ⟨S', hlate⟩ | hsame := h S
  · exact .inl ⟨S', bind_of_error hlate⟩
  · cases hrun : x S with
    | ok a S' =>
      rw [bind_of_ok hrun, bind_of_ok (hsame.trans hrun)]
      exact hf a S'
    | error stop S' =>
      rw [bind_of_error hrun, bind_of_error (hsame.trans hrun)]
      exact .inr rfl

theorem CutShort.followedBy {first first' : Exec Leave} {rest rest' : Valuation → Exec Leave}
    (hfirst : CutShort first first') (hrest : ∀ env, CutShort (rest env) (rest' env)) :
    CutShort (first.followedBy rest) (first'.followedBy rest') := by
  refine hfirst.bind fun leave => ?_
  cases leave with
  | next env => exact hrest env
  | «return» result => exact .refl _

/-- A loop that may test its condition more often goes on where it would be cut short. -/
theorem cutShort_loop {cond : Valuation → Exec Bool} {round round' : Valuation → Exec Leave}
    (hround : ∀ env, CutShort (round env) (round' env)) {rounds more : Nat} (hle : rounds ≤ more)
    (env : Valuation) : CutShort (loop cond round rounds env) (loop cond round' more env) := by
  induction rounds generalizing more env with
  | zero => exact fun S => .inl ⟨S, rfl⟩
  | succ rounds ih =>
    obtain ⟨more, rfl⟩ : ∃ n, more = n + 1 := ⟨more - 1, by omega⟩
    refine CutShort.bind (.refl _) fun goesOn => ?_
    cases goesOn with
    | false => exact .refl _
    | true => exact (hround env).followedBy fun env' => ih (by omega) env'

end Exec

open Exec

variable {sc : Scene} {env : Valuation} {rounds : Nat}

/-! Nothing but loops depends on the number of rounds. -/

theorem Reference.eval_rounds (ref : Reference) :
    ref.eval { sc with rounds } env = ref.eval sc env := by
  induction ref with
  | this | ident => rfl
  | member _ owner name ih => exact congrArg (sc.value env · name) ih

theorem Reference.evalOwner_rounds (ref : Reference) :
    ref.evalOwner { sc with rounds } env = ref.evalOwner sc env := by
  cases ref with
  | member _ owner _ => exact owner.eval_rounds
  | _ => rfl

theorem Reference.assign_rounds (target : Reference) (value : Exec Datum) :
    target.assign { sc with rounds } env value = target.assign sc env value := by
  cases target with
  | this | ident => rfl
  | member _ owner name => exact congrArg (sc.assign env · name value) owner.eval_rounds

namespace Expr

mutual

/-- The evaluation of an expression does not depend on the number of rounds, for only statements
    have loops. -/
theorem eval_rounds : (expr : Expr) → expr.eval { sc with rounds } env = expr.eval sc env
  | int .. | bool .. | null _ | newObject .. => rfl
  | unary _ _ operand => by simp only [eval, operand.eval_rounds]
  | binary _ _ left right => by simp only [eval, left.eval_rounds, right.eval_rounds]
  | ternary _ cond onTrue onFalse => by
    simp only [eval, cond.eval_rounds, onTrue.eval_rounds, onFalse.eval_rounds]
  | ref _ target => target.eval_rounds
  | index _ target subscript => by simp only [eval, target.eval_rounds, subscript.eval_rounds]
  | call _ callee args => by
    simp only [eval, evalAll_rounds args, callee.evalOwner_rounds]
    rfl
  | newArray _ _ size => by simp only [eval, size.eval_rounds]

theorem evalAll_rounds : (args : List Expr) →
    evalAll { sc with rounds } env args = evalAll sc env args
  | [] => rfl
  | arg :: rest => by simp only [evalAll, arg.eval_rounds, evalAll_rounds rest]

end

end Expr

namespace Stmt

theorem goesOn_rounds (cond : Option Expr) : goesOn { sc with rounds } cond = goesOn sc cond := by
  funext env
  cases cond with
  | none => rfl
  | some cond => simp only [goesOn, cond.eval_rounds]

variable {more : Nat}

mutual

/-- With more rounds, an execution that comes to an end is the same, and one that is cut short
    goes on. -/
theorem cutShort_exec (hle : rounds ≤ more) : (stmt : Stmt) → (env : Valuation) →
    CutShort (stmt.exec { sc with rounds } env) (stmt.exec { sc with rounds := more } env)
  | block _ stmts, env => cutShort_execAll hle stmts env
  | varDecl .., _ | indexAssign .., _ | .return _ (some _), _ => by
    simp only [exec, Reference.eval_rounds, Expr.eval_rounds]
    exact .refl _
  | assign .., _ => by
    simp only [exec, Reference.assign_rounds, Expr.eval_rounds]
    exact .refl _
  | call .., _ => by
    simp only [exec, Reference.evalOwner_rounds, Expr.evalAll_rounds]
    exact .refl _
  | .return _ none, _ => .refl _
  | ifElse _ cond onTrue onFalse, env => by
    simp only [exec, Expr.eval_rounds]
    refine CutShort.bind (.refl _) fun d => ?_
    split
    · exact cutShort_exec hle onTrue env
    · exact cutShort_execOption hle onFalse env
  | .while _ cond body, env => by
    simp only [exec, goesOn_rounds]
    exact cutShort_loop (cutShort_exec hle body) hle env
  | .for _ init cond update body, env => by
    simp only [exec, goesOn_rounds]
    exact (cutShort_execOption hle init env).followedBy <| cutShort_loop
      (fun env => (cutShort_exec hle body env).followedBy (cutShort_execOption hle update)) hle

theorem cutShort_execOption (hle : rounds ≤ more) : (stmt : Option Stmt) → (env : Valuation) →
    CutShort (execOption { sc with rounds } stmt env) (execOption { sc with rounds := more } stmt env)
  | none, _ => .refl _
  | some stmt, env => cutShort_exec hle stmt env

theorem cutShort_execAll (hle : rounds ≤ more) : (stmts : List Stmt) → (env : Valuation) →
    CutShort (execAll { sc with rounds } stmts env) (execAll { sc with rounds := more } stmts env)
  | [], _ => .refl _
  | stmt :: rest, env => (cutShort_exec hle stmt env).followedBy (cutShort_execAll hle rest)

end

end Stmt

end SmallJava
