import SmallJava.Proofs.Analysis.Independence
import SmallJava.Syntax.Rebinding

namespace SmallJava

/-! A change of recorded bindings changes nothing that was written. -/

variable (change : Rebinding)

@[simp]
theorem Ident.erase_rebind (name : Ident) : (name.rebind change).erase = name.erase := rfl

@[simp]
theorem Reference.erase_rebind (ref : Reference) : (ref.rebind change).erase = ref.erase := by
  induction ref with
  | this => rfl
  | ident => rfl
  | member annot owner name ih => simp [rebind, erase, ih]

namespace Expr

mutual

/-- The expression that was written stays the same. -/
@[simp]
theorem erase_rebind : (expr : Expr) → (expr.rebind change).erase = expr.erase
  | int .. | bool .. | null .. => rfl
  | unary _ _ operand => by simp [rebind, erase, operand.erase_rebind]
  | binary _ _ left right => by simp [rebind, erase, left.erase_rebind, right.erase_rebind]
  | ternary _ cond onTrue onFalse => by
    simp [rebind, erase, cond.erase_rebind, onTrue.erase_rebind, onFalse.erase_rebind]
  | ref .. => by simp [rebind, erase]
  | index _ _ subscript => by simp [rebind, erase, subscript.erase_rebind]
  | call _ _ args => by simp [rebind, erase, eraseAll_rebindAll args]
  | newObject .. => by simp [rebind, erase]
  | newArray _ _ size => by simp [rebind, erase, size.erase_rebind]

@[simp]
theorem eraseAll_rebindAll : (exprs : List Expr) →
    eraseAll (rebindAll change exprs) = eraseAll exprs
  | [] => rfl
  | expr :: rest => by simp [rebindAll, eraseAll, expr.erase_rebind, eraseAll_rebindAll rest]

end

end Expr

@[simp]
theorem LocalDef.erase_rebind (var : LocalDef) : (var.rebind change).erase = var.erase := rfl

namespace Stmt

mutual

/-- The statement that was written stays the same. -/
@[simp]
theorem erase_rebind : (stmt : Stmt) → (stmt.rebind change).erase = stmt.erase
  | block _ stmts => by simp [rebind, erase, eraseAll_rebindAll stmts]
  | varDecl .. => by simp [rebind, erase]
  | assign .. => by simp [rebind, erase]
  | indexAssign .. => by simp [rebind, erase]
  | call .. => by simp [rebind, erase]
  | .return _ value => by cases value <;> simp [rebind, erase]
  | ifElse _ _ onTrue onFalse => by
    simp [rebind, erase, onTrue.erase_rebind, eraseOption_rebindOption onFalse]
  | .while _ _ body => by simp [rebind, erase, body.erase_rebind]
  | .for _ init cond update body => by
    cases cond <;> simp [rebind, erase, eraseOption_rebindOption init,
      eraseOption_rebindOption update, body.erase_rebind]

@[simp]
theorem eraseOption_rebindOption : (stmt : Option Stmt) →
    eraseOption (rebindOption change stmt) = eraseOption stmt
  | none => rfl
  | some stmt => by simp [rebindOption, eraseOption, stmt.erase_rebind]

@[simp]
theorem eraseAll_rebindAll : (stmts : List Stmt) →
    eraseAll (rebindAll change stmts) = eraseAll stmts
  | [] => rfl
  | stmt :: rest => by simp [rebindAll, eraseAll, stmt.erase_rebind, eraseAll_rebindAll rest]

end

end Stmt

@[simp]
theorem FieldDef.erase_rebind (field : FieldDef) : (field.rebind change).erase = field.erase := rfl

@[simp]
theorem ParamDef.erase_rebind (param : ParamDef) : (param.rebind change).erase = param.erase := rfl

@[simp]
theorem MethodDef.erase_rebind (method : MethodDef) : (method.rebind change).erase = method.erase := by
  simp [rebind, erase, Function.comp_def]

@[simp]
theorem ClassDef.erase_rebind (cls : ClassDef) : (cls.rebind change).erase = cls.erase := by
  simp [rebind, erase, Function.comp_def]

/-- The program that was written stays the same. -/
@[simp]
theorem Package.erase_rebind (package : Package) : (package.rebind change).erase = package.erase := by
  simp [rebind, erase, Function.comp_def]

/-- Analysis writes over all recorded bindings, so that it says the same of a program whatever
    they were changed to: only code generation can tell the difference. -/
theorem Package.analyze_rebind (package : Package) :
    (package.rebind change).analyze.Same package.analyze :=
  analyze_same (package.erase_rebind change)

end SmallJava
