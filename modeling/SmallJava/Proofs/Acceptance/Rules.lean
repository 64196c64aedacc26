import Mathlib.Data.List.Forall2
import SmallJava.Syntax.Definition

/-! The rules that a program has to follow, in terms of the names that are written in it. -/

namespace SmallJava.Source

/-- The types of a program, with classes by their names. The unsupported type is that of
`String`, which programs may name but not use. -/
inductive Ty where
  | int
  | boolean
  | void
  | null
  | unsupported
  | object (cls : String)
  | array (elem : Ty)

/-- A value of either type may stand where the other is expected. -/
inductive Ty.Matches : Ty → Ty → Prop
  | int : Matches int int
  | boolean : Matches boolean boolean
  | void : Matches void void
  | null : Matches null null
  | nullObject {cls} : Matches null (object cls)
  | objectNull {cls} : Matches (object cls) null
  | nullArray {elem} : Matches null (array elem)
  | arrayNull {elem} : Matches (array elem) null
  | object {cls} : Matches (object cls) (object cls)
  | array {elem elem'} (helem : Matches elem elem') : Matches (array elem) (array elem')

/-- The type of a choice between matching alternatives: `null` takes the other type. -/
def Ty.choice : Ty → Ty → Ty
  | null, other => other
  | ty, _ => ty

/-- What a class says of one of its fields. -/
structure FieldSig where
  modifiers : Modifiers
  type : TypeExpr
  name : String

/-- What a class says of one of its methods, apart from the body. -/
structure MethodSig where
  modifiers : Modifiers
  returnType : TypeExpr
  name : String
  params : List TypeExpr

/-- What a class offers to bodies. -/
structure ClassSig where
  name : String
  fields : List FieldSig
  methods : List MethodSig

end Source

def FieldDef.sig (field : FieldDef) : Source.FieldSig := ⟨field.modifiers, field.type, field.name⟩

def MethodDef.sig (method : MethodDef) : Source.MethodSig :=
  ⟨method.modifiers, method.returnType, method.name, method.params.map (·.type)⟩

def ClassDef.sig (cls : ClassDef) : Source.ClassSig :=
  ⟨cls.name, cls.fields.map FieldDef.sig, cls.methods.map MethodDef.sig⟩

namespace Source

/-- The classes that every program finds in place. -/
def builtinSigs : List ClassSig := [
  ⟨"System", [⟨{ isStatic := true }, .named {} "_PrintStream", "out"⟩], []⟩,
  ⟨"_PrintStream", [], [⟨{ isStatic := true }, .void {}, "println", [.int {}]⟩]⟩,
  ⟨"String", [], []⟩]

/-- The classes of a program, the built-in ones among them. -/
def classesOf (package : Package) : List ClassSig := builtinSigs ++ package.classes.map ClassDef.sig

/-- The type that a written type denotes. A class has to exist. -/
inductive Denotes (classes : List ClassSig) : TypeExpr → Ty → Prop
  | int {span} : Denotes classes (.int span) .int
  | boolean {span} : Denotes classes (.boolean span) .boolean
  | void {span} : Denotes classes (.void span) .void
  | string {span} : Denotes classes (.named span "String") .unsupported
  | object {span cls} (hcls : cls ∈ classes) (hname : cls.name ≠ "String") :
    Denotes classes (.named span cls.name) (.object cls.name)
  | array {span elem ty} (helem : Denotes classes elem ty) :
    Denotes classes (.array span elem) (.array ty)

/-- What a path can denote. Only what has a place can be assigned. -/
inductive Entity where
  | place (ty : Ty)
  | value (ty : Ty)
  | method (sig : MethodSig)
  | cls (sig : ClassSig)

/-- The type of what has a value. -/
def Entity.ty? : Entity → Option Ty
  | place ty | value ty => some ty
  | method _ | cls _ => none

/-- Fields and methods share one namespace. -/
def ClassSig.memberNames (cls : ClassSig) : List String :=
  cls.fields.map (·.name) ++ cls.methods.map (·.name)

/-- What the name of a member denotes, with the modifiers of the member. -/
inductive ClassSig.Member (classes : List ClassSig) (cls : ClassSig) :
    String → Modifiers → Entity → Prop
  | field {field ty} (hmem : field ∈ cls.fields) (htype : Denotes classes field.type ty) :
    Member classes cls field.name field.modifiers (.place ty)
  | method {sig} (hmem : sig ∈ cls.methods) :
    Member classes cls sig.name sig.modifiers (.method sig)

/-- The variables of one block with their types, the newest first. -/
abbrev Block := List (String × Ty)

/-- The surroundings of a point in the body of a method. -/
structure Env where
  classes : List ClassSig
  /-- The class of the method. -/
  cls : ClassSig
  isStatic : Bool
  returnTy : Ty
  /-- The variables of the innermost block, and those of the blocks around it. Parameters are
  variables of the outermost one. -/
  block : Block
  around : List Block
  /-- The variable whose initial value this point is in. -/
  initializing : Option String := none

namespace Env

/-- At the start of a block. -/
def enter (env : Env) : Env := { env with block := [], around := env.block :: env.around }

/-- The innermost variable of a name. -/
def visible? (env : Env) (name : String) : Option Ty :=
  (env.block :: env.around).findSome? (·.lookup name)

/-- Inside a class all its members are visible, elsewhere only the public ones. -/
def Sees (env : Env) (cls : ClassSig) (modifiers : Modifiers) : Prop :=
  cls.name = env.cls.name ∨ modifiers.isPrivate = false

end Env

/-- What a name denotes after a dot. A class gives access to its static members, an object to all
members of its class, an array to its length. -/
inductive Selects (env : Env) : Entity → String → Entity → Prop
  | static {cls name modifiers entity} (hmember : cls.Member env.classes name modifiers entity)
    (hsees : env.Sees cls modifiers) (hstatic : modifiers.isStatic = true) :
    Selects env (.cls cls) name entity
  | member {object cls name modifiers entity} (hcls : cls ∈ env.classes)
    (hobject : object.ty? = some (.object cls.name))
    (hmember : cls.Member env.classes name modifiers entity) (hsees : env.Sees cls modifiers) :
    Selects env object name entity
  | length {array elem name} (harray : array.ty? = some (.array elem)) (hname : name = "length") :
    Selects env array name (.value .int)

/-- What a path denotes. A bare name is that of a variable, or else of a member of the class
around, or else of a class. -/
inductive Refers (env : Env) : Reference → Entity → Prop
  | this {annot} (hinstance : env.isStatic = false) :
    Refers env (.this annot) (.value (.object env.cls.name))
  | variable {annot name ty} (hvar : env.visible? name.name = some ty)
    (hready : env.initializing ≠ some name.name) : Refers env (.ident annot name) (.place ty)
  | ownMember {annot name modifiers entity} (hvar : env.visible? name.name = none)
    (hmember : env.cls.Member env.classes name.name modifiers entity)
    (hstatic : env.isStatic = true → modifiers.isStatic = true) :
    Refers env (.ident annot name) entity
  | className {annot name cls} (hvar : env.visible? name.name = none)
    (hmember : name.name ∉ env.cls.memberNames) (hcls : cls ∈ env.classes)
    (hname : cls.name = name.name) : Refers env (.ident annot name) (.cls cls)
  | member {annot owner name object entity} (howner : Refers env owner object)
    (hselects : Selects env object name.name entity) : Refers env (.member annot owner name) entity

/-- The types of the operands and of the result of a unary operator. -/
inductive UnaryTyped : UnaryOp → Ty → Ty → Prop
  | not : UnaryTyped .not .boolean .boolean
  | neg : UnaryTyped .neg .int .int

/-- The types of the operands and of the result of a binary operator. Values of matching types
can be compared. -/
inductive BinaryTyped : BinaryOp → Ty → Ty → Ty → Prop
  | logical {op} (hfamily : op.family = .logical) : BinaryTyped op .boolean .boolean .boolean
  | relational {op} (hfamily : op.family = .relational) : BinaryTyped op .int .int .boolean
  | arithmetic {op} (hfamily : op.family = .arithmetic) : BinaryTyped op .int .int .int
  | equality {op left right} (hfamily : op.family = .equality) (hleft : left ≠ .void)
    (hright : right ≠ .void) (hmatches : left.Matches right) : BinaryTyped op left right .boolean

mutual

/-- The type of an expression. -/
inductive HasType (env : Env) : Expr → Ty → Prop
  | int {annot value} : HasType env (.int annot value) .int
  | bool {annot value} : HasType env (.bool annot value) .boolean
  | null {annot} : HasType env (.null annot) .null
  | unary {annot op operand operandTy ty} (hoperand : HasType env operand operandTy)
    (htyped : UnaryTyped op operandTy ty) : HasType env (.unary annot op operand) ty
  | binary {annot op left right leftTy rightTy ty} (hleft : HasType env left leftTy)
    (hright : HasType env right rightTy) (htyped : BinaryTyped op leftTy rightTy ty) :
    HasType env (.binary annot op left right) ty
  | ternary {annot cond onTrue onFalse trueTy falseTy} (hcond : HasType env cond .boolean)
    (htrue : HasType env onTrue trueTy) (hfalse : HasType env onFalse falseTy)
    (hmatches : trueTy.Matches falseTy) :
    HasType env (.ternary annot cond onTrue onFalse) (trueTy.choice falseTy)
  | ref {annot target entity ty} (htarget : Refers env target entity)
    (hvalue : entity.ty? = some ty) : HasType env (.ref annot target) ty
  | index {annot target subscript entity elem} (htarget : Refers env target entity)
    (harray : entity.ty? = some (.array elem)) (hsubscript : HasType env subscript .int) :
    HasType env (.index annot target subscript) elem
  | call {annot callee args sig ty} (hcallee : Refers env callee (.method sig))
    (hargs : ArgsFit env sig.params args) (hreturn : Denotes env.classes sig.returnType ty) :
    HasType env (.call annot callee args) ty
  | newObject {annot cls ty} (hcls : Denotes env.classes (.named cls.span cls.name) ty) :
    HasType env (.newObject annot cls) ty
  | newArray {annot elem size ty} (helem : Denotes env.classes elem ty)
    (hsize : HasType env size .int) : HasType env (.newArray annot elem size) (.array ty)

/-- The arguments of a call match the parameters one by one. -/
inductive ArgsFit (env : Env) : List TypeExpr → List Expr → Prop
  | nil : ArgsFit env [] []
  | cons {param params arg args expected found} (hparam : Denotes env.classes param expected)
    (harg : HasType env arg found) (hmatches : expected.Matches found)
    (hargs : ArgsFit env params args) : ArgsFit env (param :: params) (arg :: args)

end

mutual

/-- A statement that follows the rules, with the variables of the innermost block after it. -/
inductive Valid : Env → Stmt → Block → Prop
  | block {env span stmts block} (hstmts : ValidAll env.enter stmts block) :
    Valid env (.block span stmts) env.block
  | varDecl {env span var init ty found} (htype : Denotes env.classes var.type ty)
    (hfresh : env.block.lookup var.name = none)
    (hinit : HasType { env with
      block := (var.name, ty) :: env.block
      initializing := some var.name } init found) (hmatches : ty.Matches found) :
    Valid env (.varDecl span var init) ((var.name, ty) :: env.block)
  | assign {env span target value expected found} (htarget : Refers env target (.place expected))
    (hvalue : HasType env value found) (hmatches : expected.Matches found) :
    Valid env (.assign span target value) env.block
  | indexAssign {env span target subscript value entity elem found}
    (htarget : Refers env target entity) (harray : entity.ty? = some (.array elem))
    (hsubscript : HasType env subscript .int) (hvalue : HasType env value found)
    (hmatches : elem.Matches found) :
    Valid env (.indexAssign span target subscript value) env.block
  | call {env span callee args sig} (hcallee : Refers env callee (.method sig))
    (hargs : ArgsFit env sig.params args) : Valid env (.call span callee args) env.block
  | returnNothing {env span} (hvoid : env.returnTy = .void) :
    Valid env (.return span none) env.block
  | returnValue {env span value found} (hvoid : env.returnTy ≠ .void)
    (hvalue : HasType env value found) (hmatches : env.returnTy.Matches found) :
    Valid env (.return span (some value)) env.block
  | ifThen {env span cond onTrue} (hcond : HasType env cond .boolean)
    (htrue : ValidBranch env onTrue) : Valid env (.ifElse span cond onTrue none) env.block
  | ifElse {env span cond onTrue onFalse} (hcond : HasType env cond .boolean)
    (htrue : ValidBranch env onTrue) (hfalse : ValidBranch env onFalse) :
    Valid env (.ifElse span cond onTrue (some onFalse)) env.block
  | while {env span cond body} (hcond : HasType env cond .boolean)
    (hbody : ValidBranch env body) : Valid env (.while span cond body) env.block
  | for {env span init cond update body declared updated}
    (hinit : ValidOption env.enter init declared)
    (hcond : ∀ expr, cond = some expr → HasType { env.enter with block := declared } expr .boolean)
    (hupdate : ValidOption { env.enter with block := declared } update updated)
    (hbody : ValidBranch { env.enter with block := updated } body) :
    Valid env (.for span init cond update body) env.block

/-- A branch or the body of a loop is a block of its own, and more than a declaration. -/
inductive ValidBranch : Env → Stmt → Prop
  | mk {env stmt block} (hdecl : stmt.isVarDecl = false) (hstmt : Valid env.enter stmt block) :
    ValidBranch env stmt

/-- The start and the update of a loop, if there are any. -/
inductive ValidOption : Env → Option Stmt → Block → Prop
  | none {env} : ValidOption env none env.block
  | some {env stmt block} (hstmt : Valid env stmt block) : ValidOption env (some stmt) block

/-- Statements one after the other. -/
inductive ValidAll : Env → List Stmt → Block → Prop
  | nil {env} : ValidAll env [] env.block
  | cons {env stmt rest block block'} (hstmt : Valid env stmt block)
    (hrest : ValidAll { env with block } rest block') : ValidAll env (stmt :: rest) block'

end

mutual

/-- Control never runs past the statement, as far as its shape says so. Loops never count. -/
inductive Returns : Stmt → Prop
  | return {span value} : Returns (.return span value)
  | block {span stmts} (hstmts : ReturnsAll stmts) : Returns (.block span stmts)
  | ifElse {span cond onTrue onFalse} (htrue : Returns onTrue) (hfalse : Returns onFalse) :
    Returns (.ifElse span cond onTrue (some onFalse))

/-- The last statement is one that control never runs past. -/
inductive ReturnsAll : List Stmt → Prop
  | last {stmt} (hstmt : Returns stmt) : ReturnsAll [stmt]
  | cons {stmt rest} (hrest : ReturnsAll rest) : ReturnsAll (stmt :: rest)

end

/-- A method that follows the rules. Its parameters are variables of the outermost block. -/
structure ValidMethod (classes : List ClassSig) (cls : ClassSig) (method : MethodDef) : Prop where
  params : (method.params.map (·.name)).Nodup
  body : ∃ returnTy types block, Denotes classes method.returnType returnTy ∧
    List.Forall₂ (fun param ty => Denotes classes param.type ty) method.params types ∧
      ValidAll {
        classes, cls, isStatic := method.modifiers.isStatic, returnTy
        block := ((method.params.map (·.name)).zip types).reverse, around := [] } method.body block
  returns : method.returnType.isVoid = false → ReturnsAll method.body

/-- A class that follows the rules. -/
structure ValidClass (classes : List ClassSig) (cls : ClassDef) : Prop where
  members : cls.sig.memberNames.Nodup
  fields : ∀ field ∈ cls.fields, ∃ ty, Denotes classes field.type ty
  methods : ∀ method ∈ cls.methods, ValidMethod classes cls.sig method

/-- A program that follows the rules. -/
structure ValidPackage (package : Package) : Prop where
  names : ((classesOf package).map (·.name)).Nodup
  classes : ∀ cls ∈ package.classes, ValidClass (classesOf package) cls
  entry : ∃ cls ∈ package.classes, ∃ method ∈ cls.methods, method.hasEntrySignature = true

end SmallJava.Source
