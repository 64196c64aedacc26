import SmallJava.Proofs.Declaration.Declared
import SmallJava.Proofs.Scoping.Layers

namespace SmallJava

/-- The names at one point of a method, as the text around it gives them. -/
structure Names where
  /-- The variables of the blocks around, the innermost block first. -/
  locals : Layers
  params : Layer
  members : Layer
  classes : Layer

namespace Names

/-- What a bare name denotes: the innermost local variable of that name, or else the parameter,
    the member of the class, or the class of that name. -/
def find? (names : Names) (name : String) : Option SymbolId :=
  names.locals.find? name |>.or (names.params.lookup name) |>.or (names.members.lookup name)
    |>.or (names.classes.lookup name)

/-- Enters a block. -/
def enter (names : Names) : Names := { names with locals := [] :: names.locals }

/-- Declares a local variable in the innermost block. -/
def declare (names : Names) (name : String) (x : SymbolId) : Names :=
  { names with locals := names.locals.declare name x }

/-- The declarations that some name denotes here or in a block around. -/
def symbols (names : Names) : List SymbolId :=
  (names.locals.flatten ++ names.params ++ names.members ++ names.classes).map (·.2)

end Names

/-- The names after a statement: a declaration brings its variable into force. -/
def Stmt.namesAfter (names : Names) : Stmt → Names
  | varDecl _ var _ =>
    match var.binding with
    | some x => names.declare var.name x
    | none => names
  | _ => names

def Stmt.optionNamesAfter (names : Names) (stmt : Option Stmt) : Names :=
  (stmt.map (namesAfter names)).getD names

/-- The first name of the path is bound to what it denotes by itself. -/
def Reference.Scoped (names : Names) : Reference → Prop
  | this _ => True
  | ident _ name => ∃ x, name.binding = some x ∧ names.find? name.name = some x
  | member _ owner _ => owner.Scoped names

namespace Expr

mutual

/-- Every bare name in the expression is bound to what it denotes. -/
def Scoped (names : Names) : Expr → Prop
  | int .. | bool .. | null .. => True
  | unary _ _ operand => Scoped names operand
  | binary _ _ left right => Scoped names left ∧ Scoped names right
  | ternary _ cond onTrue onFalse =>
    Scoped names cond ∧ Scoped names onTrue ∧ Scoped names onFalse
  | ref _ target => target.Scoped names
  | index _ target subscript => target.Scoped names ∧ Scoped names subscript
  | call _ callee args => callee.Scoped names ∧ AllScoped names args
  | newObject _ cls => ∃ c, cls.binding = some c ∧ names.classes.lookup cls.name = some c
  | newArray _ _ size => Scoped names size

def AllScoped (names : Names) : List Expr → Prop
  | [] => True
  | expr :: rest => Scoped names expr ∧ AllScoped names rest

end

end Expr

namespace Stmt

mutual

/-- Every bare name in the statement is bound to what it denotes where it stands. A variable is
    not in force in its own initial value, and it is none of those declared around. -/
def Scoped (names : Names) : Stmt → Prop
  | block _ stmts => AllScoped names.enter stmts
  | varDecl _ var init => init.Scoped names ∧ ∃ x, var.binding = some x ∧ x ∉ names.symbols
  | assign _ target value => target.Scoped names ∧ value.Scoped names
  | indexAssign _ target subscript value =>
    target.Scoped names ∧ subscript.Scoped names ∧ value.Scoped names
  | call _ callee args => callee.Scoped names ∧ Expr.AllScoped names args
  | .return _ value => ∀ expr ∈ value, expr.Scoped names
  | ifElse _ cond onTrue onFalse =>
    cond.Scoped names ∧ Scoped names.enter onTrue ∧ OptionScoped names.enter onFalse
  | .while _ cond body => cond.Scoped names ∧ Scoped names.enter body
  | .for _ init cond update body =>
    OptionScoped names.enter init ∧
      (∀ expr ∈ cond, expr.Scoped (optionNamesAfter names.enter init)) ∧
        OptionScoped (optionNamesAfter names.enter init) update ∧
          Scoped (optionNamesAfter (optionNamesAfter names.enter init) update).enter body

def OptionScoped (names : Names) : Option Stmt → Prop
  | none => True
  | some stmt => Scoped names stmt

def AllScoped (names : Names) : List Stmt → Prop
  | [] => True
  | stmt :: rest => Scoped names stmt ∧ AllScoped (namesAfter names stmt) rest

end

end Stmt

/-- The declarations of a list of definitions by their names. -/
def Layer.of {α : Type} (name : α → String) (binding : α → Option SymbolId) (defs : List α) : Layer :=
  defs.filterMap fun d => (binding d).map (name d, ·)

/-- The names where the body of a method begins. -/
def MethodDef.names (cls : ClassDef) (classes : List ClassDef) (method : MethodDef) : Names where
  locals := [[]]
  params := .of ParamDef.name ParamDef.binding method.params
  members := .of MemberDef.name MemberDef.binding cls.members
  classes := .of ClassDef.name ClassDef.binding classes

/-- Every bare name in the bodies of the methods is bound to what it denotes. -/
def Package.Scoped (package : Package) : Prop :=
  ∀ cls ∈ package.classes, ∀ method ∈ cls.methods,
    Stmt.AllScoped (method.names cls (Builtins.classDefs ++ package.classes)) method.body

end SmallJava
