import SmallJava.Analysis.Package
import SmallJava.Proofs.Signature
import SmallJava.Proofs.Typing.Ty

namespace SmallJava

/-- Where an expression stands: the declarations, and the method around it. -/
structure Context where
  sig : Signature
  cls : SymbolId
  isStatic : Bool
  returnTy : Ty
  params : List SymbolId

/-- What a member is declared with, for the class that owns it. -/
inductive Signature.MemberOf (sig : Signature) (cls : SymbolId) (x : SymbolId) : Prop
  | field {modifiers} (hkind : sig.kind? x = some (.field cls modifiers))
  | method {info} (hkind : sig.kind? x = some (.method info)) (howner : info.owner = cls)

/-- The type that a written type denotes. -/
inductive TypeExpr.Denotes (sig : Signature) : TypeExpr → Ty → Prop
  | int {span} : Denotes sig (.int span) .int
  | boolean {span} : Denotes sig (.boolean span) .boolean
  | void {span} : Denotes sig (.void span) .void
  | cls {span name c info} (hkind : sig.kind? c = some (.cls info)) :
      Denotes sig (.named span name) (.object c)
  | string {span name} : Denotes sig (.named span name) .unsupported
  | array {span elem ty} (helem : Denotes sig elem ty) : Denotes sig (.array span elem) (.array ty)

/-- A type contains `void` exactly if it is written with it. -/
theorem TypeExpr.Denotes.avoidsVoid {sig : Signature} {type : TypeExpr} {ty : Ty}
    (h : type.Denotes sig ty) : ty.avoidsVoid = type.avoidsVoid := by
  induction h with
  | array _ ih => simpa [Ty.avoidsVoid, TypeExpr.avoidsVoid] using ih
  | _ => rfl

section References

variable (Γ : Context) (vars : List SymbolId)

/-- The path denotes a value of the type, given the variables in force. -/
inductive Reference.Value : Reference → Ty → Prop
  | this {annot} (hinstance : Γ.isStatic = false) : Value (.this annot) (.object Γ.cls)
  | variable {annot name x} (hbound : name.binding = some x) (hvar : x ∈ vars)
      (hkind : Γ.sig.kind? x = some .localVar ∨ Γ.sig.kind? x = some .param) :
      Value (.ident annot name) (Γ.sig.typeOf x)
  | ownField {annot name x modifiers} (hbound : name.binding = some x)
      (hkind : Γ.sig.kind? x = some (.field Γ.cls modifiers))
      (hstatic : Γ.isStatic = true → modifiers.isStatic = true) :
      Value (.ident annot name) (Γ.sig.typeOf x)
  | staticField {annot owner name x cls modifiers} (hbound : name.binding = some x)
      (hkind : Γ.sig.kind? x = some (.field cls modifiers))
      (hstatic : modifiers.isStatic = true) :
      Value (.member annot owner name) (Γ.sig.typeOf x)
  | field {annot owner name x cls modifiers} (hbound : name.binding = some x)
      (hkind : Γ.sig.kind? x = some (.field cls modifiers))
      (hstatic : modifiers.isStatic = false) (howner : Value owner (.object cls)) :
      Value (.member annot owner name) (Γ.sig.typeOf x)
  | length {annot owner name x elem} (hbound : name.binding = some x)
      (hkind : Γ.sig.kind? x = some .arrayLength) (howner : Value owner (.array elem)) :
      Value (.member annot owner name) .int

/-- The path denotes a method that can be called where it stands. -/
inductive Reference.Callee : Reference → SymbolId → Prop
  | own {annot name m info} (hbound : name.binding = some m)
      (hkind : Γ.sig.kind? m = some (.method info)) (howner : info.owner = Γ.cls)
      (hstatic : Γ.isStatic = true → info.modifiers.isStatic = true) :
      Callee (.ident annot name) m
  | static {annot owner name m info} (hbound : name.binding = some m)
      (hkind : Γ.sig.kind? m = some (.method info)) (hstatic : info.modifiers.isStatic = true) :
      Callee (.member annot owner name) m
  | instance {annot owner name m info} (hbound : name.binding = some m)
      (hkind : Γ.sig.kind? m = some (.method info)) (hstatic : info.modifiers.isStatic = false)
      (howner : Value Γ vars owner (.object info.owner)) :
      Callee (.member annot owner name) m

/-- The path denotes a value, a class, or a method of the given result type. -/
inductive Reference.Denotes (ref : Reference) (ty : Ty) : Prop
  | value (hvalue : ref.Value Γ vars ty)
  | cls {c info} (hbound : ref.binding = some c) (hkind : Γ.sig.kind? c = some (.cls info))
  | method {m} (hcallee : ref.Callee Γ vars m) (hty : ty = Γ.sig.typeOf m)

mutual

/-- The expression has the type, given the variables in force, and says so. -/
inductive Expr.HasType : Expr → Ty → Prop
  | int {annot value} (hty : annot.ty = some .int) : HasType (.int annot value) .int
  | bool {annot value} (hty : annot.ty = some .boolean) : HasType (.bool annot value) .boolean
  | null {annot} (hty : annot.ty = some .null) : HasType (.null annot) .null
  | not {annot operand} (hoperand : HasType operand .boolean) (hty : annot.ty = some .boolean) :
      HasType (.unary annot .not operand) .boolean
  | neg {annot operand} (hoperand : HasType operand .int) (hty : annot.ty = some .int) :
      HasType (.unary annot .neg operand) .int
  | logical {annot op left right} (hfamily : op.family = .logical) (hleft : HasType left .boolean)
      (hright : HasType right .boolean) (hty : annot.ty = some .boolean) :
      HasType (.binary annot op left right) .boolean
  | relational {annot op left right} (hfamily : op.family = .relational)
      (hleft : HasType left .int) (hright : HasType right .int) (hty : annot.ty = some .boolean) :
      HasType (.binary annot op left right) .boolean
  | arithmetic {annot op left right} (hfamily : op.family = .arithmetic)
      (hleft : HasType left .int) (hright : HasType right .int) (hty : annot.ty = some .int) :
      HasType (.binary annot op left right) .int
  | equality {annot op left right τ τ'} (hfamily : op.family = .equality) (hleft : HasType left τ)
      (hright : HasType right τ') (hvoid : τ ≠ .void) (hvoid' : τ' ≠ .void)
      (hty : annot.ty = some .boolean) : HasType (.binary annot op left right) .boolean
  | ternary {annot cond onTrue onFalse τ τ' ty} (hcond : HasType cond .boolean)
      (hTrue : HasType onTrue τ) (hFalse : HasType onFalse τ') (hfits : τ.Fits ty)
      (hfits' : τ'.Fits ty) (hty : annot.ty = some ty) :
      HasType (.ternary annot cond onTrue onFalse) ty
  | ref {annot target ty} (htarget : target.Value Γ vars ty) (hty : annot.ty = some ty) :
      HasType (.ref annot target) ty
  | index {annot target subscript elem} (htarget : target.Value Γ vars (.array elem))
      (hsubscript : HasType subscript .int) (hty : annot.ty = some elem) :
      HasType (.index annot target subscript) elem
  | call {annot callee args m} (hcallee : callee.Callee Γ vars m)
      (hargs : ArgsFit args (Γ.sig.paramsOf m)) (hty : annot.ty = some (Γ.sig.typeOf m)) :
      HasType (.call annot callee args) (Γ.sig.typeOf m)
  | newObject {annot} {cls : Ident} {c info ty} (hbound : cls.binding = some c)
      (hkind : Γ.sig.kind? c = some (.cls info)) (hcls : ty = .object c ∨ ty = .unsupported)
      (hty : annot.ty = some ty) : HasType (.newObject annot cls) ty
  | newArray {annot elem size ty} (helem : elem.Denotes Γ.sig ty) (hsize : HasType size .int)
      (hty : annot.ty = some (.array ty)) : HasType (.newArray annot elem size) (.array ty)

/-- Arguments fit parameters one by one. -/
inductive Expr.ArgsFit : List Expr → List SymbolId → Prop
  | nil : ArgsFit [] []
  | cons {arg args p params τ} (harg : HasType arg τ) (hfits : τ.Fits (Γ.sig.typeOf p))
      (hargs : ArgsFit args params) : ArgsFit (arg :: args) (p :: params)

end

end References

namespace Reference

variable {Γ : Context} {vars : List SymbolId} {annot : Annot} {owner : Reference} {name : Ident}
  {x : SymbolId} {ty : Ty}

/-- The object of a field that is not static has a value. -/
theorem Value.owner_of_field {cls : SymbolId} {modifiers : Modifiers}
    (h : Value Γ vars (.member annot owner name) ty) (hbound : name.binding = some x)
    (hkind : Γ.sig.kind? x = some (.field cls modifiers)) (hstatic : modifiers.isStatic = false) :
    owner.Value Γ vars (.object cls) := by
  cases h with
  | staticField hbound' hkind' hstatic' =>
    obtain rfl := Option.some.inj (hbound'.symm.trans hbound)
    rw [hkind] at hkind'
    obtain ⟨-, rfl⟩ := SymbolKind.field.inj (Option.some.inj hkind')
    rw [hstatic] at hstatic'
    cases hstatic'
  | field hbound' hkind' _ howner =>
    obtain rfl := Option.some.inj (hbound'.symm.trans hbound)
    rw [hkind] at hkind'
    obtain ⟨rfl, -⟩ := SymbolKind.field.inj (Option.some.inj hkind')
    exact howner
  | length hbound' hkind' _ =>
    obtain rfl := Option.some.inj (hbound'.symm.trans hbound)
    rw [hkind] at hkind'
    cases hkind'

/-- The path before `.length` is an array. -/
theorem Value.owner_of_length (h : Value Γ vars (.member annot owner name) ty)
    (hbound : name.binding = some x) (hkind : Γ.sig.kind? x = some .arrayLength) :
    ∃ elem, owner.Value Γ vars (.array elem) := by
  cases h with
  | staticField hbound' hkind' _ =>
    obtain rfl := Option.some.inj (hbound'.symm.trans hbound)
    rw [hkind] at hkind'
    cases hkind'
  | field hbound' hkind' _ _ =>
    obtain rfl := Option.some.inj (hbound'.symm.trans hbound)
    rw [hkind] at hkind'
    cases hkind'
  | @length _ _ _ _ elem _ _ howner => exact ⟨elem, howner⟩

/-- The object of a call of a method that is not static has a value. -/
theorem Callee.owner_of_instance {m : SymbolId} {info : MethodInfo}
    (h : Callee Γ vars (.member annot owner name) m) (hkind : Γ.sig.kind? m = some (.method info))
    (hstatic : info.modifiers.isStatic = false) : owner.Value Γ vars (.object info.owner) := by
  cases h with
  | static _ hkind' hstatic' =>
    rw [hkind] at hkind'
    obtain rfl := SymbolKind.method.inj (Option.some.inj hkind')
    rw [hstatic] at hstatic'
    cases hstatic'
  | «instance» _ hkind' _ howner =>
    rw [hkind] at hkind'
    obtain rfl := SymbolKind.method.inj (Option.some.inj hkind')
    exact howner

end Reference

/-- The path denotes something that can be assigned. -/
def Reference.Assignable (sig : Signature) (target : Reference) : Prop :=
  ∃ x, target.binding = some x ∧ sig.kind? x ≠ some .arrayLength

/-- The local variables that a statement brings into force for what follows it. -/
def Stmt.binds : Stmt → List SymbolId
  | .varDecl _ var _ => var.binding.toList
  | _ => []

theorem Stmt.binds_of_plain {stmt : Stmt} (hplain : stmt.isVarDecl = false) : stmt.binds = [] := by
  cases stmt with
  | varDecl => cases hplain
  | _ => rfl

def Stmt.optionBinds (stmt : Option Stmt) : List SymbolId := (stmt.map Stmt.binds).getD []

theorem Stmt.optionBinds_of_plain {stmt : Option Stmt} (hplain : ∀ s ∈ stmt, s.isVarDecl = false) :
    Stmt.optionBinds stmt = [] := by
  cases stmt with
  | none => rfl
  | some stmt => exact Stmt.binds_of_plain (hplain stmt rfl)

namespace Stmt

mutual

/-- All local variables that a statement declares, in the order of their declaration. -/
def declared : Stmt → List SymbolId
  | block _ stmts => allDeclared stmts
  | varDecl _ var _ => var.binding.toList
  | ifElse _ _ onTrue onFalse => declared onTrue ++ optionDeclared onFalse
  | .while _ _ body => declared body
  | .for _ init _ update body => optionDeclared init ++ (optionDeclared update ++ declared body)
  | _ => []

def optionDeclared : Option Stmt → List SymbolId
  | none => []
  | some stmt => declared stmt

def allDeclared : List Stmt → List SymbolId
  | [] => []
  | stmt :: rest => declared stmt ++ allDeclared rest

end

end Stmt

section Statements

variable (Γ : Context)

mutual

/-- The statement is well typed, given the local variables in force. -/
inductive Stmt.WellTyped : List SymbolId → Stmt → Prop
  | block {locals span stmts} (hstmts : ListWellTyped locals stmts) :
      WellTyped locals (.block span stmts)
  | varDecl {locals span} {var : LocalDef} {init x τ} (hbound : var.binding = some x)
      (hkind : Γ.sig.kind? x = some .localVar) (hfresh : x ∉ Γ.params ++ locals)
      (hinit : init.HasType Γ (Γ.params ++ locals) τ) (hfits : τ.Fits (Γ.sig.typeOf x)) :
      WellTyped locals (.varDecl span var init)
  | assign {locals span target value τ ty} (htarget : target.Value Γ (Γ.params ++ locals) ty)
      (hplace : target.Assignable Γ.sig) (hvalue : value.HasType Γ (Γ.params ++ locals) τ)
      (hfits : τ.Fits ty) : WellTyped locals (.assign span target value)
  | indexAssign {locals span target subscript value τ elem}
      (htarget : target.Value Γ (Γ.params ++ locals) (.array elem))
      (hsubscript : subscript.HasType Γ (Γ.params ++ locals) .int)
      (hvalue : value.HasType Γ (Γ.params ++ locals) τ) (hfits : τ.Fits elem) :
      WellTyped locals (.indexAssign span target subscript value)
  | call {locals span callee args m} (hcallee : callee.Callee Γ (Γ.params ++ locals) m)
      (hargs : Expr.ArgsFit Γ (Γ.params ++ locals) args (Γ.sig.paramsOf m)) :
      WellTyped locals (.call span callee args)
  | return {locals span} (hvoid : Γ.returnTy = .void) : WellTyped locals (.return span none)
  | returnValue {locals span value τ} (hvoid : Γ.returnTy ≠ .void)
      (hvalue : value.HasType Γ (Γ.params ++ locals) τ) (hfits : τ.Fits Γ.returnTy) :
      WellTyped locals (.return span (some value))
  | ifElse {locals span cond onTrue onFalse} (hcond : cond.HasType Γ (Γ.params ++ locals) .boolean)
      (hTrue : BranchWellTyped locals onTrue) (hFalse : ∀ stmt ∈ onFalse, BranchWellTyped locals stmt) :
      WellTyped locals (.ifElse span cond onTrue onFalse)
  | while {locals span cond body} (hcond : cond.HasType Γ (Γ.params ++ locals) .boolean)
      (hbody : BranchWellTyped locals body) : WellTyped locals (.while span cond body)
  | for {locals span init cond update body} (hinit : ∀ stmt ∈ init, WellTyped locals stmt)
      (hcond : ∀ expr ∈ cond,
        expr.HasType Γ (Γ.params ++ (locals ++ Stmt.optionBinds init)) .boolean)
      (hupdate : ∀ stmt ∈ update, WellTyped (locals ++ Stmt.optionBinds init) stmt)
      (hbody : BranchWellTyped
        (locals ++ Stmt.optionBinds init ++ Stmt.optionBinds update) body) :
      WellTyped locals (.for span init cond update body)

/-- A well-typed statement that declares nothing for what follows it. -/
inductive Stmt.BranchWellTyped : List SymbolId → Stmt → Prop
  | intro {locals stmt} (hstmt : WellTyped locals stmt) (hplain : stmt.isVarDecl = false) :
      BranchWellTyped locals stmt

/-- Statements in sequence are well typed. -/
inductive Stmt.ListWellTyped : List SymbolId → List Stmt → Prop
  | nil {locals} : ListWellTyped locals []
  | cons {locals stmt rest} (hstmt : WellTyped locals stmt)
      (hrest : ListWellTyped (locals ++ stmt.binds) rest) : ListWellTyped locals (stmt :: rest)

end

end Statements

namespace Stmt.BranchWellTyped

variable {Γ : Context} {locals : List SymbolId} {stmt : Stmt}

theorem typed (h : stmt.BranchWellTyped Γ locals) : stmt.WellTyped Γ locals := by
  obtain ⟨hstmt, -⟩ := h
  exact hstmt

theorem plain (h : stmt.BranchWellTyped Γ locals) : stmt.isVarDecl = false := by
  obtain ⟨-, hplain⟩ := h
  exact hplain

end Stmt.BranchWellTyped

/-- The method is declared as it is written, its body is well typed, and if it is to return
    a value, it never runs past its end. -/
structure MethodDef.WellTyped (sig : Signature) (method : MethodDef) (m : SymbolId)
    (info : MethodInfo) : Prop where
  bound : method.binding = some m
  kind : sig.kind? m = some (.method info)
  modifiers : info.modifiers = method.modifiers
  arity : info.params.length = method.params.length
  isVoid : (sig.typeOf m).isVoid = method.returnType.isVoid
  returns : method.returnType.isVoid = false → Stmt.allReturn method.body = true
  body : Stmt.ListWellTyped
    ⟨sig, info.owner, info.modifiers.isStatic, sig.typeOf m, info.params⟩ [] method.body

end SmallJava
