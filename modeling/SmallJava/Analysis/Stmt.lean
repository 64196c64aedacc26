import SmallJava.Analysis.Expr
import SmallJava.Syntax.Stmt

namespace SmallJava

namespace Typing

def initial (table : SymbolTable) (name : String) (expected found : Ty) (span : Span) :
    List Diagnostic :=
  if expected.agrees found then []
  else
    [.typeMismatch (s!"cannot initialize variable '{name}' of type {table.describe expected} " ++
      s!"with a value of type {table.describe found}") span]

def assignment (table : SymbolTable) (target : Reference) (expected found : Ty) (span : Span) :
    List Diagnostic :=
  match unassignable? table target with
  | some what => [.invalidAssignment what span]
  | none =>
    if expected.agrees found then []
    else
      [.typeMismatch (s!"cannot assign a value of type {table.describe found} " ++
        s!"to a target of type {table.describe expected}") span]

def stored (table : SymbolTable) (elem found : Ty) (span : Span) : List Diagnostic :=
  if elem.agrees found then []
  else
    [.typeMismatch (s!"cannot store a value of type {table.describe found} " ++
      s!"in an array of {table.describe elem}") span]

/-- Whether a `return` fits its method. Only `void` itself counts as returning
    nothing. -/
def returned (table : SymbolTable) (expected : Ty) (found : Option Ty) (span : Span) :
    List Diagnostic :=
  match found with
  | none =>
    if expected.isVoid then [] else [.invalidReturn "a non-void method must return a value" span]
  | some found =>
    if expected.isVoid then [.invalidReturn "cannot return a value from a void method" span]
    else if expected.agrees found then []
    else
      [.typeMismatch (s!"cannot return a value of type {table.describe found} " ++
        s!"from a method returning {table.describe expected}") span]

/-- Nothing could ever read a variable that is all there is in a branch. -/
def branch (stmt : Stmt) : List Diagnostic :=
  if stmt.isVarDecl then [.solitaryDeclaration stmt.span] else []

end Typing

namespace Walk

variable {α ν : Type}

/-- Analysis of a part in which the names now in force have their meaning. -/
def inEnv (method : MethodContext) (part : Env → Check ν α) : Walk ν α := do
  part ((← get).env method)

end Walk

/-- Analysis of the condition of an `if`, `while` or `for`. -/
def Expr.checkCondition (construct : String) (cond : Expr) (env : Env) : Check Expr Expr := do
  let (cond, ty) ← cond.analyze env
  Check.report (Typing.required env.table s!"{construct} condition" .boolean ty cond.span)
  pure cond

namespace Stmt

open Walk

/-- A declaration is in force from its own initial value on, which may not use it. -/
def analyzeVarDecl (method : MethodContext) (span : Span) (var : LocalDef) (init : Expr) :
    Walk Stmt Stmt := do
  let node := varDecl span var init
  let bindings ← get
  let ty ← Check.orAbort node (var.type.resolve bindings.scope bindings.builtins)
  let symbol := bindings.table.nextId
  let scope ← Check.orAbort node (bindings.scope.declareLocal var.name symbol var.span)
  let table := bindings.table.add var.name .localVar ty var.span
  let bindings := { bindings with table, scope }
  set bindings
  let var := { var with binding := some symbol }
  let env := { bindings.env method with initializing := some symbol }
  let (init, initTy) ← Check.within (varDecl span var) (init.analyze env)
  report (Typing.initial table var.name ty initTy span)
  pure (varDecl span var init)

def analyzeAssign (span : Span) (target : Reference) (value : Expr) (env : Env) :
    Check Stmt Stmt := do
  let (target, targetTy) ← target.check env (assign span · value)
  let (value, valueTy) ← Check.within (assign span target) (value.analyze env)
  Check.report (Typing.assignment env.table target targetTy valueTy span)
  pure (assign span target value)

def analyzeIndexAssign (span : Span) (target : Reference) (subscript value : Expr) (env : Env) :
    Check Stmt Stmt := do
  let (target, targetTy) ← target.check env (indexAssign span · subscript value)
  let (subscript, subscriptTy) ←
    Check.within (indexAssign span target · value) (subscript.analyze env)
  let (value, valueTy) ← Check.within (indexAssign span target subscript) (value.analyze env)
  let elem ← Check.conclude (Typing.element env.table target targetTy span)
  Check.report (Typing.required env.table "array index" .int subscriptTy subscript.span)
  Check.report (Typing.stored env.table elem valueTy span)
  pure (indexAssign span target subscript value)

def analyzeCall (span : Span) (callee : Reference) (args : List Expr) (env : Env) :
    Check Stmt Stmt := do
  let (callee, args, _) ← Check.within (fun (callee, args) => call span callee args)
    (Typing.checkCall env span callee args (Expr.analyzeAll env args))
  pure (call span callee args)

def analyzeReturn (span : Span) (value : Option Expr) (env : Env) : Check Stmt Stmt := do
  match value with
  | none =>
    Check.report (Typing.returned env.table env.method.returnTy none span)
    pure (.return span none)
  | some value =>
    let (value, ty) ← Check.within (.return span <| some ·) (value.analyze env)
    Check.report (Typing.returned env.table env.method.returnTy (some ty) span)
    pure (.return span (some value))

/-- A branch or loop body is a block of its own. -/
def analyzeBranch (stmt : Stmt) (analysis : Walk Stmt Stmt) : Walk Stmt Stmt := do
  report (Typing.branch stmt)
  onScope Scope.push
  let stmt ← analysis
  onScope Scope.pop
  pure stmt

mutual

/-- Analyses a statement and all its parts in the order of their execution. -/
def analyze (method : MethodContext) : Stmt → Walk Stmt Stmt
  | block span stmts => do
    onScope Scope.push
    let stmts ← within (block span) (analyzeAll method stmts)
    onScope Scope.pop
    pure (block span stmts)
  | varDecl span var init => analyzeVarDecl method span var init
  | assign span target value => inEnv method (analyzeAssign span target value)
  | indexAssign span target subscript value =>
    inEnv method (analyzeIndexAssign span target subscript value)
  | call span callee args => inEnv method (analyzeCall span callee args)
  | .return span value => inEnv method (analyzeReturn span value)
  | ifElse span cond onTrue onFalse => do
    let cond ← within (ifElse span · onTrue onFalse) (inEnv method (cond.checkCondition "if"))
    let onTrue ← within (ifElse span cond · onFalse) (analyzeBranch onTrue (analyze method onTrue))
    match onFalse with
    | none => pure (ifElse span cond onTrue none)
    | some onFalse =>
      let onFalse ← within (ifElse span cond onTrue <| some ·)
        (analyzeBranch onFalse (analyze method onFalse))
      pure (ifElse span cond onTrue (some onFalse))
  | .while span cond body => do
    let cond ← within (.while span · body) (inEnv method (cond.checkCondition "while"))
    let body ← within (.while span cond) (analyzeBranch body (analyze method body))
    pure (.while span cond body)
  | .for span init cond update body => do
    onScope Scope.push
    let init ← within (.for span · cond update body) (analyzeOption method init)
    let cond ← within (.for span init · update body) <|
      match cond with
      | none => pure none
      | some cond =>
        some <$> within some (inEnv method (cond.checkCondition "for"))
    let update ← within (.for span init cond · body) (analyzeOption method update)
    let body ← within (.for span init cond update) (analyzeBranch body (analyze method body))
    onScope Scope.pop
    pure (.for span init cond update body)

def analyzeOption (method : MethodContext) : Option Stmt → Walk (Option Stmt) (Option Stmt)
  | none => pure none
  | some stmt => some <$> within some (analyze method stmt)

def analyzeAll (method : MethodContext) : List Stmt → Walk (List Stmt) (List Stmt)
  | [] => pure []
  | stmt :: rest => do
    let stmt ← within (· :: rest) (analyze method stmt)
    let rest ← within (stmt :: ·) (analyzeAll method rest)
    pure (stmt :: rest)

end

end Stmt

end SmallJava
