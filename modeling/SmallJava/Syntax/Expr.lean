import SmallJava.Syntax.Operator
import SmallJava.Ty

namespace SmallJava

/-- A name in the source, with the symbol that analysis binds it to. -/
structure Ident where
  name : String
  span : Span := {}
  binding : Option SymbolId := none

instance : Spanned Ident where
  span ident := ident.span
  withSpan span ident := { ident with span }

/-- A type as it is written. -/
inductive TypeExpr where
  | int (span : Span)
  | boolean (span : Span)
  | void (span : Span)
  | named (span : Span) (name : String)
  | array (span : Span) (elem : TypeExpr)

namespace TypeExpr

def span : TypeExpr → Span
  | int span | boolean span | void span | named span _ | array span _ => span

def withSpan (span : Span) : TypeExpr → TypeExpr
  | int _ => int span
  | boolean _ => boolean span
  | void _ => void span
  | named _ name => named span name
  | array _ elem => array span elem

instance : Spanned TypeExpr := ⟨span, withSpan⟩

def isVoid : TypeExpr → Bool
  | void _ => true
  | _ => false

/-- Being written `String[]`, with exactly one pair of brackets. -/
def isStringArray : TypeExpr → Bool
  | array _ (named _ name) => name == "String"
  | _ => false

def render : TypeExpr → String
  | int _ => "int"
  | boolean _ => "boolean"
  | void _ => "void"
  | named _ name => name
  | array _ elem => elem.render ++ "[]"

end TypeExpr

/-- What every typed node records besides its parts: where it stands, and the
    type that analysis gives it. -/
structure Annot where
  span : Span := {}
  ty : Option Ty := none

/-- A path to a variable, method or class. -/
inductive Reference where
  | this (annot : Annot)
  | ident (annot : Annot) (name : Ident)
  | member (annot : Annot) (owner : Reference) (name : Ident)

namespace Reference

def annot : Reference → Annot
  | this annot | ident annot _ | member annot _ _ => annot

def withSpan (span : Span) : Reference → Reference
  | this annot => this { annot with span }
  | ident annot name => ident { annot with span } name
  | member annot owner name => member { annot with span } owner name

instance : Spanned Reference := ⟨fun ref => ref.annot.span, withSpan⟩

/-- The last name of the path; `this` alone has none. -/
def lastName? : Reference → Option Ident
  | this _ => none
  | ident _ name | member _ _ name => some name

/-- What the whole path denotes. -/
def binding (ref : Reference) : Option SymbolId := ref.lastName?.bind (·.binding)

def isThis : Reference → Bool
  | this _ => true
  | _ => false

end Reference

inductive Expr where
  | int (annot : Annot) (value : Word)
  | bool (annot : Annot) (value : Bool)
  | null (annot : Annot)
  | unary (annot : Annot) (op : UnaryOp) (operand : Expr)
  | binary (annot : Annot) (op : BinaryOp) (left right : Expr)
  | ternary (annot : Annot) (cond onTrue onFalse : Expr)
  | ref (annot : Annot) (target : Reference)
  | index (annot : Annot) (target : Reference) (subscript : Expr)
  | call (annot : Annot) (callee : Reference) (args : List Expr)
  | newObject (annot : Annot) (cls : Ident)
  | newArray (annot : Annot) (elem : TypeExpr) (size : Expr)

namespace Expr

def annot : Expr → Annot
  | int annot _ | bool annot _ | null annot | unary annot _ _ | binary annot _ _ _
  | ternary annot _ _ _ | ref annot _ | index annot _ _ | call annot _ _ | newObject annot _
  | newArray annot _ _ => annot

def withSpan (span : Span) : Expr → Expr
  | int annot value => int { annot with span } value
  | bool annot value => bool { annot with span } value
  | null annot => null { annot with span }
  | unary annot op operand => unary { annot with span } op operand
  | binary annot op left right => binary { annot with span } op left right
  | ternary annot cond onTrue onFalse => ternary { annot with span } cond onTrue onFalse
  | ref annot target => ref { annot with span } target
  | index annot target subscript => index { annot with span } target subscript
  | call annot callee args => call { annot with span } callee args
  | newObject annot cls => newObject { annot with span } cls
  | newArray annot elem size => newArray { annot with span } elem size

def span (expr : Expr) : Span := expr.annot.span

instance : Spanned Expr := ⟨span, withSpan⟩

end Expr

end SmallJava
