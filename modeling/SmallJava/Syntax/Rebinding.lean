import SmallJava.Syntax.Definition

namespace SmallJava

/-- A change of recorded bindings: of everything defined under a name, or of
    every use of it. Code can be generated for a program with such changes, which
    shows what generation makes of bindings that no analysis records; what was
    written stays the same (`Package.erase_rebind`). -/
inductive Rebinding where
  | definition (name : String) (binding : Option SymbolId)
  | use (name : String) (binding : Option SymbolId)

namespace Rebinding

/-- The binding of something defined as `name` that was bound to `old`. -/
def ofDefinition (change : Rebinding) (name : String) (old : Option SymbolId) :
    Option SymbolId :=
  match change with
  | definition changed binding => if changed = name then binding else old
  | use .. => old

/-- The binding of a use of `name` that was bound to `old`. -/
def ofUse (change : Rebinding) (name : String) (old : Option SymbolId) : Option SymbolId :=
  match change with
  | use changed binding => if changed = name then binding else old
  | definition .. => old

end Rebinding

def Ident.rebind (change : Rebinding) (name : Ident) : Ident :=
  { name with binding := change.ofUse name.name name.binding }

def Reference.rebind (change : Rebinding) : Reference → Reference
  | .this annot => .this annot
  | .ident annot name => .ident annot (name.rebind change)
  | .member annot owner name => .member annot (owner.rebind change) (name.rebind change)

namespace Expr

mutual

def rebind (change : Rebinding) : Expr → Expr
  | int annot value => int annot value
  | bool annot value => bool annot value
  | null annot => null annot
  | unary annot op operand => unary annot op (operand.rebind change)
  | binary annot op left right => binary annot op (left.rebind change) (right.rebind change)
  | ternary annot cond onTrue onFalse =>
    ternary annot (cond.rebind change) (onTrue.rebind change) (onFalse.rebind change)
  | ref annot target => ref annot (target.rebind change)
  | index annot target subscript => index annot (target.rebind change) (subscript.rebind change)
  | call annot callee args => call annot (callee.rebind change) (rebindAll change args)
  | newObject annot cls => newObject annot (cls.rebind change)
  | newArray annot elem size => newArray annot elem (size.rebind change)

def rebindAll (change : Rebinding) : List Expr → List Expr
  | [] => []
  | expr :: rest => expr.rebind change :: rebindAll change rest

end

end Expr

def LocalDef.rebind (change : Rebinding) (var : LocalDef) : LocalDef :=
  { var with binding := change.ofDefinition var.name var.binding }

namespace Stmt

mutual

def rebind (change : Rebinding) : Stmt → Stmt
  | block span stmts => block span (rebindAll change stmts)
  | varDecl span var init => varDecl span (var.rebind change) (init.rebind change)
  | assign span target value => assign span (target.rebind change) (value.rebind change)
  | indexAssign span target subscript value =>
    indexAssign span (target.rebind change) (subscript.rebind change) (value.rebind change)
  | call span callee args => call span (callee.rebind change) (Expr.rebindAll change args)
  | .return span value => .return span (value.map (·.rebind change))
  | ifElse span cond onTrue onFalse =>
    ifElse span (cond.rebind change) (onTrue.rebind change) (rebindOption change onFalse)
  | .while span cond body => .while span (cond.rebind change) (body.rebind change)
  | .for span init cond update body =>
    .for span (rebindOption change init) (cond.map (·.rebind change)) (rebindOption change update)
      (body.rebind change)

def rebindOption (change : Rebinding) : Option Stmt → Option Stmt
  | none => none
  | some stmt => some (stmt.rebind change)

def rebindAll (change : Rebinding) : List Stmt → List Stmt
  | [] => []
  | stmt :: rest => stmt.rebind change :: rebindAll change rest

end

end Stmt

def FieldDef.rebind (change : Rebinding) (field : FieldDef) : FieldDef :=
  { field with binding := change.ofDefinition field.name field.binding }

def ParamDef.rebind (change : Rebinding) (param : ParamDef) : ParamDef :=
  { param with binding := change.ofDefinition param.name param.binding }

def MethodDef.rebind (change : Rebinding) (method : MethodDef) : MethodDef :=
  { method with
    binding := change.ofDefinition method.name method.binding
    params := method.params.map (·.rebind change)
    body := Stmt.rebindAll change method.body }

def ClassDef.rebind (change : Rebinding) (cls : ClassDef) : ClassDef :=
  { cls with
    binding := change.ofDefinition cls.name cls.binding
    fields := cls.fields.map (·.rebind change)
    methods := cls.methods.map (·.rebind change) }

def Package.rebind (change : Rebinding) (package : Package) : Package :=
  { package with classes := package.classes.map (·.rebind change) }

end SmallJava
