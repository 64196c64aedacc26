import SmallJava.Scope
import SmallJava.Symbol.Builtins
import SmallJava.Syntax.Expr

namespace SmallJava

/-- The method whose body is analysed. -/
structure MethodContext where
  cls : SymbolId
  isStatic : Bool
  returnTy : Ty

/-- The declarations that analysis has seen so far, and the names in force. -/
structure Bindings where
  table : SymbolTable
  builtins : Builtins
  scope : Scope

/-- Everything that the meaning of an expression depends on. While the initial
    value of a variable is analysed, `initializing` is that variable. -/
structure Env extends Bindings where
  method : MethodContext
  initializing : Option SymbolId := none

namespace Bindings

/-- The built-in declarations, with their class names in force. -/
def initial : Bindings :=
  let (table, builtins) := Builtins.install {}
  let classes := Dict.ofList (table.classes.map fun cls => (table.nameOf cls, cls))
  { table, builtins, scope := { classes } }

def env (bindings : Bindings) (method : MethodContext) : Env := { bindings with method }

end Bindings

/-- The kind of what a path denotes; `this` denotes no symbol. -/
def Reference.kind? (table : SymbolTable) (ref : Reference) : Option SymbolKind :=
  ref.binding.bind table.kind?

/-- The type of the instances of a class. `String` has none that a program
    could use. -/
def Builtins.instanceTy (builtins : Builtins) (cls : SymbolId) : Ty :=
  if cls = builtins.string then .unsupported else .object cls

/-- The type that a written type denotes. -/
def TypeExpr.resolve (scope : Scope) (builtins : Builtins) : TypeExpr → Except Diagnostic Ty
  | .int _ => .ok .int
  | .boolean _ => .ok .boolean
  | .void _ => .ok .void
  | .named span name =>
    match scope.class? name with
    | some cls => .ok (builtins.instanceTy cls)
    | none => .error (.unknownClass name span)
  | .array _ elem => (elem.resolve scope builtins).map .array

end SmallJava
