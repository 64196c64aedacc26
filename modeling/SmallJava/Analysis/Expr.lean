import SmallJava.Analysis.Check
import SmallJava.Analysis.Reference
import SmallJava.Analysis.Typing

namespace SmallJava

open Check

/-- Analysis of a path as a part of a larger node. -/
def Reference.check {ν : Type} (env : Env) (rebuild : Reference → ν) (target : Reference) :
    Check ν (Reference × Ty) :=
  match target.analyze env with
  | .ok found => pure found
  | .error (target, fatal) => abort (rebuild target) fatal

/-- Analysis of a call, given the analysis of its arguments, which follows that
    of the callee. -/
def Typing.checkCall (env : Env) (span : Span) (callee : Reference) (args : List Expr)
    (checkArgs : Check (List Expr) (List (Expr × Ty))) :
    Check (Reference × List Expr) (Reference × List Expr × Ty) := do
  let (callee, _) ← callee.check env (·, args)
  let args ← within (callee, ·) checkArgs
  let ty ← conclude (Typing.call env.table callee args span)
  pure (callee, args.map (·.1), ty)

namespace Expr

mutual

/-- Binds the names of an expression and types it and all its parts, from left
    to right. A mistake in a type is reported where it arises; the expression
    then has the error type, which fits everywhere. -/
def analyze (env : Env) : Expr → Check Expr (Expr × Ty)
  | int annot value => pure (int { annot with ty := some .int } value, .int)
  | bool annot value => pure (bool { annot with ty := some .boolean } value, .boolean)
  | null annot => pure (null { annot with ty := some .null }, .null)
  | unary annot op operand => do
    let (operand, operandTy) ← within (unary annot op) (analyze env operand)
    let ty ← conclude (Typing.unary op operandTy annot.span)
    pure (unary { annot with ty } op operand, ty)
  | binary annot op left right => do
    let (left, leftTy) ← within (binary annot op · right) (analyze env left)
    let (right, rightTy) ← within (binary annot op left) (analyze env right)
    let ty ← conclude (Typing.binary op leftTy rightTy annot.span)
    pure (binary { annot with ty } op left right, ty)
  | ternary annot cond onTrue onFalse => do
    let (cond, condTy) ← within (ternary annot · onTrue onFalse) (analyze env cond)
    report (Typing.required env.table "ternary condition" .boolean condTy cond.span)
    let (onTrue, trueTy) ← within (ternary annot cond · onFalse) (analyze env onTrue)
    let (onFalse, falseTy) ← within (ternary annot cond onTrue) (analyze env onFalse)
    let ty ← conclude (Typing.ternary env.table trueTy falseTy annot.span)
    pure (ternary { annot with ty } cond onTrue onFalse, ty)
  | ref annot target => do
    let (target, targetTy) ← target.check env (ref annot)
    let ty ← conclude (Typing.value env.table target targetTy)
    pure (ref { annot with ty } target, ty)
  | index annot target subscript => do
    let (target, targetTy) ← target.check env (index annot · subscript)
    let (subscript, subscriptTy) ← within (index annot target) (analyze env subscript)
    let ty ← conclude (Typing.element env.table target targetTy annot.span)
    report (Typing.required env.table "array index" .int subscriptTy subscript.span)
    pure (index { annot with ty } target subscript, ty)
  | call annot callee args => do
    let (callee, args, ty) ← within (fun (callee, args) => call annot callee args)
      (Typing.checkCall env annot.span callee args (analyzeAll env args))
    pure (call { annot with ty } callee args, ty)
  | newObject annot cls =>
    match env.scope.class? cls.name with
    | none => abort (newObject annot cls) (.unknownClass cls.name cls.span)
    | some symbol =>
      let ty := env.builtins.instanceTy symbol
      pure (newObject { annot with ty := some ty } { cls with binding := some symbol }, ty)
  | newArray annot elem size => do
    let elemTy ← orAbort (newArray annot elem size) (elem.resolve env.scope env.builtins)
    let (size, sizeTy) ← within (newArray annot elem) (analyze env size)
    report (Typing.required env.table "array size" .int sizeTy size.span)
    let ty := .array elemTy
    pure (newArray { annot with ty := some ty } elem size, ty)

def analyzeAll (env : Env) : List Expr → Check (List Expr) (List (Expr × Ty))
  | [] => pure []
  | expr :: rest => do
    let found ← within (· :: rest) (analyze env expr)
    let others ← within (found.1 :: ·) (analyzeAll env rest)
    pure (found :: others)

end

end Expr

end SmallJava
