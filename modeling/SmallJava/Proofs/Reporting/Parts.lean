import SmallJava.Syntax.Definition

/-! The parts of a tree that analysis annotates. -/

namespace SmallJava

/-- The path itself, and the path before each of its dots. -/
def Reference.paths : Reference → List Reference
  | .member annot owner name => .member annot owner name :: owner.paths
  | ref => [ref]

namespace Expr

mutual

/-- All expressions in an expression, without itself. -/
def inner : Expr → List Expr
  | unary _ _ operand => operand :: operand.inner
  | binary _ _ left right => left :: left.inner ++ right :: right.inner
  | ternary _ cond onTrue onFalse =>
    cond :: cond.inner ++ onTrue :: onTrue.inner ++ onFalse :: onFalse.inner
  | index _ _ subscript => subscript :: subscript.inner
  | call _ _ args => allExprs args
  | newArray _ _ size => size :: size.inner
  | _ => []

/-- All expressions in a list of expressions. -/
def allExprs : List Expr → List Expr
  | [] => []
  | expr :: rest => expr :: expr.inner ++ allExprs rest

end

/-- The expression and all expressions in it. -/
def exprs (expr : Expr) : List Expr := expr :: expr.inner

/-- The path that an expression starts with. -/
def path? : Expr → Option Reference
  | ref _ target | index _ target _ | call _ target _ => some target
  | _ => none

/-- The name of the class that an expression makes an object of. -/
def className? : Expr → Option Ident
  | newObject _ cls => some cls
  | _ => none

end Expr

namespace Stmt

mutual

/-- The statement and all statements in it. -/
def stmts : Stmt → List Stmt
  | block span body => block span body :: allStmts body
  | ifElse span cond onTrue onFalse =>
    ifElse span cond onTrue onFalse :: onTrue.stmts ++ optionStmts onFalse
  | .while span cond body => .while span cond body :: body.stmts
  | .for span init cond update body =>
    .for span init cond update body :: optionStmts init ++ optionStmts update ++ body.stmts
  | stmt => [stmt]

def optionStmts : Option Stmt → List Stmt
  | none => []
  | some stmt => stmt.stmts

/-- All statements in a list of statements. -/
def allStmts : List Stmt → List Stmt
  | [] => []
  | stmt :: rest => stmt.stmts ++ allStmts rest

end

/-- The expressions that stand in a statement, but not in a statement or expression in it. -/
def own : Stmt → List Expr
  | varDecl _ _ init => [init]
  | assign _ _ value => [value]
  | indexAssign _ _ subscript value => [subscript, value]
  | call _ _ args => args
  | .return _ value => value.toList
  | ifElse _ cond _ _ | .while _ cond _ => [cond]
  | .for _ _ cond _ _ => cond.toList
  | block .. => []

/-- The path that a statement starts with. -/
def path? : Stmt → Option Reference
  | assign _ target _ | indexAssign _ target _ _ | call _ target _ => some target
  | _ => none

/-- The variable that a statement declares. -/
def var? : Stmt → Option LocalDef
  | varDecl _ var _ => some var
  | _ => none

end Stmt

namespace Package

def stmts (package : Package) : List Stmt :=
  (package.classes.flatMap (·.methods)).flatMap fun method => Stmt.allStmts method.body

/-- All expressions of a program. -/
def exprs (package : Package) : List Expr :=
  package.stmts.flatMap fun stmt => stmt.own.flatMap (·.exprs)

/-- All paths of a program, and the paths before their dots. -/
def paths (package : Package) : List Reference :=
  (package.exprs.filterMap (·.path?) ++ package.stmts.filterMap (·.path?)).flatMap (·.paths)

/-- All names in the bodies of a program: bare names, names after a dot, and names of classes that
objects are made of. -/
def names (package : Package) : List Ident :=
  package.paths.filterMap (·.lastName?) ++ package.exprs.filterMap (·.className?)

/-- What all the declarations of a program are bound to. -/
def declarations (package : Package) : List (Option SymbolId) :=
  package.classes.map (·.binding) ++
    package.classes.flatMap (fun cls => cls.fields.map (·.binding)) ++
      (package.classes.flatMap (·.methods)).flatMap
        (fun method => method.binding :: method.params.map (·.binding)) ++
          package.stmts.filterMap fun stmt => stmt.var?.map (·.binding)

end Package

end SmallJava
