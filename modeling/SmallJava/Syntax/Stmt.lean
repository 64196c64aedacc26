import SmallJava.Syntax.Expr

namespace SmallJava

/-- The declaration of a local variable, without its initial value. -/
structure LocalDef where
  type : TypeExpr
  name : String
  span : Span := {}
  binding : Option SymbolId := none

instance : Spanned LocalDef where
  span var := var.span
  withSpan span var := { var with span }

inductive Stmt where
  | block (span : Span) (stmts : List Stmt)
  | varDecl (span : Span) (var : LocalDef) (init : Expr)
  | assign (span : Span) (target : Reference) (value : Expr)
  | indexAssign (span : Span) (target : Reference) (subscript value : Expr)
  | call (span : Span) (callee : Reference) (args : List Expr)
  | return (span : Span) (value : Option Expr)
  | ifElse (span : Span) (cond : Expr) (onTrue : Stmt) (onFalse : Option Stmt)
  | while (span : Span) (cond : Expr) (body : Stmt)
  | for (span : Span) (init : Option Stmt) (cond : Option Expr) (update : Option Stmt)
      (body : Stmt)

namespace Stmt

def span : Stmt → Span
  | block span _ | varDecl span _ _ | assign span _ _ | indexAssign span _ _ _
  | call span _ _ | .return span _ | ifElse span _ _ _ | .while span _ _
  | .for span _ _ _ _ => span

def withSpan (span : Span) : Stmt → Stmt
  | block _ stmts => block span stmts
  | varDecl _ var init => varDecl span var init
  | assign _ target value => assign span target value
  | indexAssign _ target subscript value => indexAssign span target subscript value
  | call _ callee args => call span callee args
  | .return _ value => .return span value
  | ifElse _ cond onTrue onFalse => ifElse span cond onTrue onFalse
  | .while _ cond body => .while span cond body
  | .for _ init cond update body => .for span init cond update body

instance : Spanned Stmt := ⟨span, withSpan⟩

def isVarDecl : Stmt → Bool
  | varDecl .. => true
  | _ => false

mutual

/-- Whether control never runs past the statement, judged by its shape alone:
    a `return`, a block that ends in such a statement, or a conditional both of
    whose branches are such statements. Loops never count. -/
def alwaysReturns : Stmt → Bool
  | .return .. => true
  | .block _ stmts => allReturn stmts
  | .ifElse _ _ onTrue (some onFalse) => alwaysReturns onTrue && alwaysReturns onFalse
  | _ => false

/-- Whether control never runs past the last of the statements. -/
def allReturn : List Stmt → Bool
  | [] => false
  | [stmt] => alwaysReturns stmt
  | _ :: rest => allReturn rest

end

end Stmt

end SmallJava
