import SmallJava.Proofs.Typing.Ty
import SmallJava.Syntax.Definition

namespace SmallJava

namespace Expr

mutual

/-- Whether no type written in the expression contains `void`. -/
def avoidsVoid : Expr → Bool
  | unary _ _ operand => avoidsVoid operand
  | binary _ _ left right => avoidsVoid left && avoidsVoid right
  | ternary _ cond onTrue onFalse => avoidsVoid cond && avoidsVoid onTrue && avoidsVoid onFalse
  | index _ _ subscript => avoidsVoid subscript
  | call _ _ args => allAvoidVoid args
  | newArray _ elem size => elem.avoidsVoid && avoidsVoid size
  | _ => true

def allAvoidVoid : List Expr → Bool
  | [] => true
  | expr :: rest => avoidsVoid expr && allAvoidVoid rest

end

end Expr

namespace Stmt

mutual

/-- Whether no type written in the statement contains `void`. -/
def avoidsVoid : Stmt → Bool
  | block _ stmts => allAvoidVoid stmts
  | varDecl _ var init => var.type.avoidsVoid && init.avoidsVoid
  | assign _ _ value => value.avoidsVoid
  | indexAssign _ _ subscript value => subscript.avoidsVoid && value.avoidsVoid
  | call _ _ args => Expr.allAvoidVoid args
  | .return _ value => value.all Expr.avoidsVoid
  | ifElse _ cond onTrue onFalse =>
    cond.avoidsVoid && avoidsVoid onTrue && optionAvoidsVoid onFalse
  | .while _ cond body => cond.avoidsVoid && avoidsVoid body
  | .for _ init cond update body =>
    optionAvoidsVoid init && cond.all Expr.avoidsVoid && optionAvoidsVoid update && avoidsVoid body

def optionAvoidsVoid : Option Stmt → Bool
  | none => true
  | some stmt => avoidsVoid stmt

def allAvoidVoid : List Stmt → Bool
  | [] => true
  | stmt :: rest => avoidsVoid stmt && allAvoidVoid rest

end

mutual

/-- Whether no loop in the statement declares a variable between its rounds. -/
def plainUpdates : Stmt → Bool
  | block _ stmts => allPlainUpdates stmts
  | ifElse _ _ onTrue onFalse => plainUpdates onTrue && optionPlainUpdates onFalse
  | .while _ _ body => plainUpdates body
  | .for _ init _ update body =>
    optionPlainUpdates init && !update.any isVarDecl && optionPlainUpdates update &&
      plainUpdates body
  | _ => true

def optionPlainUpdates : Option Stmt → Bool
  | none => true
  | some stmt => plainUpdates stmt

def allPlainUpdates : List Stmt → Bool
  | [] => true
  | stmt :: rest => plainUpdates stmt && allPlainUpdates rest

end

/-- A loop with plain updates has parts with plain updates, and its own update declares nothing. -/
theorem plain_of_plainUpdates {span : Span} {init : Option Stmt} {cond : Option Expr}
    {update : Option Stmt} {body : Stmt} (hplain : (Stmt.for span init cond update body).plainUpdates = true) :
    optionPlainUpdates init = true ∧ (∀ stmt ∈ update, stmt.isVarDecl = false) ∧
      optionPlainUpdates update = true ∧ body.plainUpdates = true := by
  simp only [plainUpdates, Bool.and_eq_true, Bool.not_eq_true'] at hplain
  obtain ⟨⟨⟨hinit, hdeclares⟩, hupdate⟩, hbody⟩ := hplain
  refine ⟨hinit, ?_, hupdate, hbody⟩
  rintro stmt ⟨⟩
  exact hdeclares

end Stmt

/-- Whether `void` is written only as the return type of the method. -/
def MethodDef.avoidsVoid (method : MethodDef) : Bool :=
  (method.returnType.isVoid || method.returnType.avoidsVoid) &&
    method.params.all (·.type.avoidsVoid) && Stmt.allAvoidVoid method.body

namespace Package

/-- Whether `void` is written only as the return type of methods. -/
def avoidsVoid (package : Package) : Bool :=
  package.classes.all fun cls =>
    cls.fields.all (·.type.avoidsVoid) && cls.methods.all MethodDef.avoidsVoid

/-- Whether no update of a `for` loop declares a variable, as is the case for simple
    statements. -/
def plainUpdates (package : Package) : Bool :=
  package.classes.all fun cls => cls.methods.all fun method => Stmt.allPlainUpdates method.body

end Package

end SmallJava
