import SmallJava.Syntax.Definition

namespace SmallJava

/-- Gives `node` the position `span` if it has none yet. `filled` is the node
    with its parts filled in the same way; a node that stands somewhere keeps
    its parts as they are. -/
def settle {α : Type} [Spanned α] (span : Span) (node filled : α) : α :=
  if (Spanned.span node).isUnplaced then Spanned.withSpan span filled else node

def Ident.fill (span : Span) (name : Ident) : Ident := settle span name name

namespace TypeExpr

def fillParts (span : Span) : TypeExpr → TypeExpr
  | .array own elem => .array own (settle span elem (fillParts span elem))
  | type => type

def fill (span : Span) (type : TypeExpr) : TypeExpr := settle span type (type.fillParts span)

end TypeExpr

namespace Reference

def fillParts (span : Span) : Reference → Reference
  | .this annot => .this annot
  | .ident annot name => .ident annot (name.fill span)
  | .member annot owner name =>
    .member annot (settle span owner (fillParts span owner)) (name.fill span)

def fill (span : Span) (ref : Reference) : Reference := settle span ref (ref.fillParts span)

end Reference

namespace Expr

mutual

def fillParts (span : Span) : Expr → Expr
  | .int annot value => .int annot value
  | .bool annot value => .bool annot value
  | .null annot => .null annot
  | .unary annot op operand => .unary annot op (settle span operand (fillParts span operand))
  | .binary annot op left right =>
    .binary annot op (settle span left (fillParts span left))
      (settle span right (fillParts span right))
  | .ternary annot cond onTrue onFalse =>
    .ternary annot (settle span cond (fillParts span cond))
      (settle span onTrue (fillParts span onTrue)) (settle span onFalse (fillParts span onFalse))
  | .ref annot target => .ref annot (target.fill span)
  | .index annot target subscript =>
    .index annot (target.fill span) (settle span subscript (fillParts span subscript))
  | .call annot callee args => .call annot (callee.fill span) (fillAll span args)
  | .newObject annot cls => .newObject annot (cls.fill span)
  | .newArray annot elem size =>
    .newArray annot (elem.fill span) (settle span size (fillParts span size))

def fillAll (span : Span) : List Expr → List Expr
  | [] => []
  | expr :: rest => settle span expr (fillParts span expr) :: fillAll span rest

end

def fill (span : Span) (expr : Expr) : Expr := settle span expr (expr.fillParts span)

end Expr

def LocalDef.fill (span : Span) (var : LocalDef) : LocalDef :=
  settle span var { var with type := var.type.fill span }

namespace Stmt

mutual

def fillParts (span : Span) : Stmt → Stmt
  | .block own stmts => .block own (fillAll span stmts)
  | .varDecl own var init => .varDecl own (var.fill span) (init.fill span)
  | .assign own target value => .assign own (target.fill span) (value.fill span)
  | .indexAssign own target subscript value =>
    .indexAssign own (target.fill span) (subscript.fill span) (value.fill span)
  | .call own callee args => .call own (callee.fill span) (Expr.fillAll span args)
  | .return own value => .return own (value.map (Expr.fill span))
  | .ifElse own cond onTrue onFalse =>
    .ifElse own (cond.fill span) (settle span onTrue (fillParts span onTrue))
      (fillOption span onFalse)
  | .while own cond body =>
    .while own (cond.fill span) (settle span body (fillParts span body))
  | .for own init cond update body =>
    .for own (fillOption span init) (cond.map (Expr.fill span)) (fillOption span update)
      (settle span body (fillParts span body))

def fillOption (span : Span) : Option Stmt → Option Stmt
  | none => none
  | some stmt => some (settle span stmt (fillParts span stmt))

def fillAll (span : Span) : List Stmt → List Stmt
  | [] => []
  | stmt :: rest => settle span stmt (fillParts span stmt) :: fillAll span rest

end

end Stmt

def FieldDef.fillParts (span : Span) (field : FieldDef) : FieldDef :=
  { field with type := field.type.fill span }

def ParamDef.fillParts (span : Span) (param : ParamDef) : ParamDef :=
  { param with type := param.type.fill span }

def MethodDef.fillParts (span : Span) (method : MethodDef) : MethodDef :=
  { method with
    returnType := method.returnType.fill span
    params := method.params.map fun param => settle span param (param.fillParts span)
    body := Stmt.fillAll span method.body }

def ClassDef.fillParts (span : Span) (cls : ClassDef) : ClassDef :=
  { cls with
    fields := cls.fields.map fun field => settle span field (field.fillParts span)
    methods := cls.methods.map fun method => settle span method (method.fillParts span) }

def Package.fillParts (span : Span) (package : Package) : Package :=
  { package with
    classes := package.classes.map fun cls => settle span cls (cls.fillParts span) }

/-- Trees that can be put on a source line as a whole. `fillParts` gives a
    position to the parts of a node, down to those that already have one. -/
class Placeable (α : Type) extends Spanned α where
  fillParts : Span → α → α

instance : Placeable Reference := ⟨Reference.fillParts⟩
instance : Placeable Expr := ⟨Expr.fillParts⟩
instance : Placeable Stmt := ⟨Stmt.fillParts⟩
instance : Placeable FieldDef := ⟨FieldDef.fillParts⟩
instance : Placeable ParamDef := ⟨ParamDef.fillParts⟩
instance : Placeable MethodDef := ⟨MethodDef.fillParts⟩
instance : Placeable ClassDef := ⟨ClassDef.fillParts⟩
instance : Placeable Package := ⟨Package.fillParts⟩

/-- Puts a tree on a source line. The node itself always moves; its parts move
    with it as far as nothing between them and the node stands elsewhere. -/
def placeAt {α : Type} [Placeable α] (line : Nat) (node : α) : α :=
  Spanned.withSpan (Span.atLine line) (Placeable.fillParts (Span.atLine line) node)

end SmallJava
