import SmallJava.Analysis.Env

namespace SmallJava

def UnaryOp.result? (op : UnaryOp) (operand : Ty) : Option Ty :=
  match op with
  | .not => if operand.agrees .boolean then some .boolean else none
  | .neg => if operand.agrees .int then some .int else none

/-- The result of a binary operator on operands that fit. Only the equality
    operators take operands of any type, as long as these have values that can
    be compared. -/
def BinaryOp.result? (op : BinaryOp) (left right : Ty) : Option Ty :=
  match op.family with
  | .logical => if left.agrees .boolean && right.agrees .boolean then some .boolean else none
  | .relational => if left.agrees .int && right.agrees .int then some .boolean else none
  | .arithmetic => if left.agrees .int && right.agrees .int then some .int else none
  | .equality =>
    if !left.isVoid && !right.isVoid && left.agrees right then some .boolean else none

namespace Typing

/-- What a typing rule says: the type of the node, and the mistakes it found. A
    node with a mistake gets the error type where no other type is evident. -/
abbrev Verdict := Ty × List Diagnostic

def unary (op : UnaryOp) (operand : Ty) (span : Span) : Verdict :=
  match op.result? operand with
  | some ty => (ty, [])
  | none => (.error, [.invalidOperand op.symbol "unary" span])

def binary (op : BinaryOp) (left right : Ty) (span : Span) : Verdict :=
  match op.result? left right with
  | some ty => (ty, [])
  | none => (.error, [.invalidOperand op.symbol "binary" span])

/-- The `role` at `span` must have the type `expected`. -/
def required (table : SymbolTable) (role : String) (expected found : Ty) (span : Span) :
    List Diagnostic :=
  if found.agrees expected then []
  else
    [.typeMismatch s!"{role} must be of type {expected}, found {table.describe found}" span]

/-- A `null` branch takes the type of the other branch. -/
def ternary (table : SymbolTable) (onTrue onFalse : Ty) (span : Span) : Verdict :=
  if onTrue.agrees onFalse then
    match onTrue, onFalse with
    | .error, _ | _, .error => (.error, [])
    | .null, other => (other, [])
    | ty, _ => (ty, [])
  else
    (.error, [.typeMismatch ("ternary branches have incompatible types " ++
      s!"{table.describe onTrue} and {table.describe onFalse}") span])

/-- Class and method names are not values. -/
def value (table : SymbolTable) (target : Reference) (ty : Ty) : Verdict :=
  match target.kind? table with
  | some (.cls _) => (.error, [.notAValue "class" target.annot.span])
  | some (.method _) => (.error, [.notAValue "method" target.annot.span])
  | _ => (ty, [])

/-- The type of an element of the array that `target` of type `ty` denotes. -/
def element (table : SymbolTable) (target : Reference) (ty : Ty) (span : Span) : Verdict :=
  match target, target.kind? table with
  | .this _, _ => (.error, [.invalidIndexTarget "\"this\"" span])
  | _, some (.cls _) => (.error, [.invalidIndexTarget "a class name" span])
  | _, some (.method _) => (.error, [.invalidIndexTarget "a method" span])
  | _, _ =>
    match ty with
    | .array elem => (elem, [])
    | .error => (.error, [])
    | other =>
      (.error, [.typeMismatch s!"cannot index a value of type {table.describe other}" span])

/-- What `target` is, if it cannot be assigned. -/
def unassignable? (table : SymbolTable) (target : Reference) : Option String :=
  match target, target.kind? table with
  | .this _, _ => some "\"this\""
  | _, some (.cls _) => some "a class name"
  | _, some (.method _) => some "a method"
  | _, some .arrayLength => some "the length of an array"
  | _, _ => none

/-- Compares arguments with parameters one by one, counting from `position`. -/
def arguments (table : SymbolTable) (method : String) :
    Nat → List SymbolId → List (Expr × Ty) → List Diagnostic
  | position, param :: params, (arg, found) :: args =>
    let expected := table.typeOf param
    let rest := arguments table method (position + 1) params args
    if expected.agrees found then rest
    else
      .typeMismatch (s!"argument {position} of '{method}' expects " ++
        s!"{table.describe expected}, found {table.describe found}") arg.span :: rest
  | _, _, _ => []

/-- A call has the return type of the method, also when its arguments do not fit. -/
def call (table : SymbolTable) (callee : Reference) (args : List (Expr × Ty)) (span : Span) :
    Verdict :=
  match callee.binding, callee.binding.bind table.get? with
  | some method, some symbol =>
    if symbol.kind.isMethod then
      let params := table.paramsOf method
      if params.length = args.length then
        (symbol.ty, arguments table symbol.name 1 params args)
      else (symbol.ty, [.argumentCount symbol.name params.length args.length span])
    else (.error, [.notCallable span])
  | _, _ => (.error, [.notCallable span])

end Typing

end SmallJava
