import Mathlib.Data.List.Perm.Basic
import SmallJava.Proofs.Acceptance.Program
import SmallJava.Syntax.Build

/-! The rules do not depend on the order of declarations. -/

namespace SmallJava

namespace Source

/-- The classes offer the same members, in whatever order. -/
structure ClassSig.Reordered (cls cls' : ClassSig) : Prop where
  name : cls.name = cls'.name
  fields : cls.fields.Perm cls'.fields
  methods : cls.methods.Perm cls'.methods

namespace ClassSig.Reordered

variable {cls cls' : ClassSig}

theorem refl (cls : ClassSig) : cls.Reordered cls := ⟨rfl, .refl _, .refl _⟩

theorem symm (h : cls.Reordered cls') : cls'.Reordered cls :=
  ⟨h.name.symm, h.fields.symm, h.methods.symm⟩

theorem memberNames (h : cls.Reordered cls') : cls.memberNames.Perm cls'.memberNames :=
  (h.fields.map _).append (h.methods.map _)

end ClassSig.Reordered

/-- The same classes, each with its members in whatever order. -/
structure SameClasses (classes classes' : List ClassSig) : Prop where
  forth : ∀ cls ∈ classes, ∃ cls' ∈ classes', cls.Reordered cls'
  back : ∀ cls' ∈ classes', ∃ cls ∈ classes, cls'.Reordered cls

namespace SameClasses

variable {classes classes' : List ClassSig}

/-- The same classes come after the same ones. -/
theorem append_left (h : SameClasses classes classes') (before : List ClassSig) :
    SameClasses (before ++ classes) (before ++ classes') := by
  refine ⟨fun cls hmem => ?_, fun cls hmem => ?_⟩
  · obtain hmem | hmem := List.mem_append.1 hmem
    · exact ⟨cls, List.mem_append_left _ hmem, .refl cls⟩
    · obtain ⟨cls', hmem', hsame⟩ := h.forth cls hmem
      exact ⟨cls', List.mem_append_right _ hmem', hsame⟩
  · obtain hmem | hmem := List.mem_append.1 hmem
    · exact ⟨cls, List.mem_append_left _ hmem, .refl cls⟩
    · obtain ⟨cls', hmem', hsame⟩ := h.back cls hmem
      exact ⟨cls', List.mem_append_right _ hmem', hsame⟩

end SameClasses

/-- Written types denote the same. -/
theorem Denotes.reorder {classes classes' : List ClassSig} (hsame : SameClasses classes classes')
    {type : TypeExpr} {ty : Ty} (h : Denotes classes type ty) : Denotes classes' type ty := by
  induction h with
  | int => exact .int
  | boolean => exact .boolean
  | void => exact .void
  | string => exact .string
  | @object span cls hcls hname =>
    obtain ⟨cls', hcls', hreordered⟩ := hsame.forth cls hcls
    rw [hreordered.name] at hname ⊢
    exact .object hcls' hname
  | array _ ih => exact .array ih

/-- Members are found by name, so that the order of declarations does not matter. -/
theorem ClassSig.Member.reorder {classes classes' : List ClassSig}
    (hsame : SameClasses classes classes') {cls cls' : ClassSig} (hcls : cls.Reordered cls')
    {name : String} {modifiers : Modifiers} {entity : Entity}
    (h : cls.Member classes name modifiers entity) : cls'.Member classes' name modifiers entity := by
  cases h with
  | field hmem htype => exact .field (hcls.fields.subset hmem) (htype.reorder hsame)
  | method hmem => exact .method (hcls.methods.subset hmem)

/-- The surroundings are the same up to the order of declarations. -/
structure Env.Reordered (env env' : Env) : Prop where
  classes : SameClasses env.classes env'.classes
  cls : env.cls.Reordered env'.cls
  isStatic : env.isStatic = env'.isStatic
  returnTy : env.returnTy = env'.returnTy
  block : env.block = env'.block
  around : env.around = env'.around
  initializing : env.initializing = env'.initializing

/-- The same is denoted up to the order of declarations. -/
inductive Entity.Reordered : Entity → Entity → Prop
  | same {entity} : Reordered entity entity
  | cls {sig sig'} (h : sig.Reordered sig') : Reordered (.cls sig) (.cls sig')

theorem Entity.Reordered.ty? {entity entity' : Entity} (h : entity.Reordered entity') :
    entity'.ty? = entity.ty? := by
  cases h <;> rfl

section Judgements

variable {env env' : Env}

theorem Env.Reordered.enter (h : env.Reordered env') : env.enter.Reordered env'.enter :=
  { h with
    block := rfl
    around := by rw [Env.enter, Env.enter, h.block, h.around] }

theorem Env.Reordered.with_block (h : env.Reordered env') (block : Block) :
    Env.Reordered { env with block } { env' with block } := { h with block := rfl }

/-- In the initial value of a variable. -/
theorem Env.Reordered.declare (h : env.Reordered env') (name : String) (ty : Ty) :
    Env.Reordered
      { env with block := (name, ty) :: env.block, initializing := some name }
      { env' with block := (name, ty) :: env'.block, initializing := some name } :=
  { h with
    block := by rw [h.block]
    initializing := rfl }

theorem Env.Reordered.visible? (h : env.Reordered env') (name : String) :
    env'.visible? name = env.visible? name := by
  rw [Env.visible?, Env.visible?, h.block, h.around]

theorem Env.Reordered.sees (h : env.Reordered env') {cls cls' : ClassSig}
    (hcls : cls.Reordered cls') {modifiers : Modifiers} (hsees : env.Sees cls modifiers) :
    env'.Sees cls' modifiers := by
  unfold Env.Sees at hsees ⊢
  rwa [← hcls.name, ← h.cls.name]

variable (h : env.Reordered env')

include h

/-- A name after a dot denotes the same. -/
theorem Selects.reorder {object object' entity : Entity} {name : String}
    (hobject : object.Reordered object') (hselects : Selects env object name entity) :
    Selects env' object' name entity := by
  cases hselects with
  | static hmember hsees hstatic =>
    cases hobject with
    | same => exact .static (hmember.reorder h.classes (.refl _)) (h.sees (.refl _) hsees) hstatic
    | cls hcls => exact .static (hmember.reorder h.classes hcls) (h.sees hcls hsees) hstatic
  | @member _ cls _ _ _ hcls hty hmember hsees =>
    obtain ⟨cls', hcls', hreordered⟩ := h.classes.forth cls hcls
    refine .member hcls' ?_ (hmember.reorder h.classes hreordered) (h.sees hreordered hsees)
    rw [hobject.ty?, hty, hreordered.name]
  | length harray hname => exact .length (hobject.ty?.trans harray) hname

/-- A path denotes the same. -/
theorem Refers.reorder {target : Reference} {entity : Entity} (hrefers : Refers env target entity) :
    ∃ entity', entity.Reordered entity' ∧ Refers env' target entity' := by
  induction hrefers with
  | this hinstance =>
    refine ⟨_, .same, ?_⟩
    rw [h.cls.name]
    exact .this (h.isStatic.symm.trans hinstance)
  | «variable» hvar hready =>
    exact ⟨_, .same, .variable ((h.visible? _).trans hvar) (h.initializing ▸ hready)⟩
  | ownMember hvar hmember hstatic =>
    exact ⟨_, .same, .ownMember ((h.visible? _).trans hvar) (hmember.reorder h.classes h.cls)
      (h.isStatic ▸ hstatic)⟩
  | className hvar hmember hcls hname =>
    obtain ⟨cls', hcls', hreordered⟩ := h.classes.forth _ hcls
    refine ⟨_, .cls hreordered, .className ((h.visible? _).trans hvar) ?_ hcls'
      (hreordered.name.symm.trans hname)⟩
    exact fun hmem => hmember (h.cls.memberNames.symm.subset hmem)
  | member _ hselects ih =>
    obtain ⟨object', hobject, howner⟩ := ih
    exact ⟨_, .same, .member howner (hselects.reorder h hobject)⟩

theorem Refers.reorder_of_ty {target : Reference} {entity : Entity} {ty : Ty}
    (hrefers : Refers env target entity) (hty : entity.ty? = some ty) :
    ∃ entity', Refers env' target entity' ∧ entity'.ty? = some ty := by
  obtain ⟨entity', hsame, hrefers'⟩ := hrefers.reorder h
  exact ⟨entity', hrefers', hsame.ty?.trans hty⟩

theorem Refers.reorder_method {target : Reference} {sig : MethodSig}
    (hrefers : Refers env target (.method sig)) : Refers env' target (.method sig) := by
  obtain ⟨entity', hsame, hrefers'⟩ := hrefers.reorder h
  cases hsame
  exact hrefers'

theorem Refers.reorder_place {target : Reference} {ty : Ty}
    (hrefers : Refers env target (.place ty)) : Refers env' target (.place ty) := by
  obtain ⟨entity', hsame, hrefers'⟩ := hrefers.reorder h
  cases hsame
  exact hrefers'

end Judgements

mutual

/-- An expression has the same type. -/
theorem HasType.reorder {env env' : Env} (h : env.Reordered env') : {expr : Expr} → {ty : Ty} →
    HasType env expr ty → HasType env' expr ty
  | .int .., _, .int => .int
  | .bool .., _, .bool => .bool
  | .null .., _, .null => .null
  | .unary .., _, .unary hoperand htyped => .unary (hoperand.reorder h) htyped
  | .binary .., _, .binary hleft hright htyped => .binary (hleft.reorder h) (hright.reorder h) htyped
  | .ternary .., _, .ternary hcond htrue hfalse hmatches =>
    .ternary (hcond.reorder h) (htrue.reorder h) (hfalse.reorder h) hmatches
  | .ref .., _, .ref htarget hvalue => by
    obtain ⟨entity', htarget', hvalue'⟩ := htarget.reorder_of_ty h hvalue
    exact .ref htarget' hvalue'
  | .index .., _, .index htarget harray hsubscript => by
    obtain ⟨entity', htarget', harray'⟩ := htarget.reorder_of_ty h harray
    exact .index htarget' harray' (hsubscript.reorder h)
  | .call .., _, .call hcallee hargs hreturn =>
    .call (hcallee.reorder_method h) (hargs.reorder h) (hreturn.reorder h.classes)
  | .newObject .., _, .newObject hcls => .newObject (hcls.reorder h.classes)
  | .newArray .., _, .newArray helem hsize =>
    .newArray (helem.reorder h.classes) (hsize.reorder h)

theorem ArgsFit.reorder {env env' : Env} (h : env.Reordered env') : {params : List TypeExpr} →
    {args : List Expr} → ArgsFit env params args → ArgsFit env' params args
  | _, [], .nil => .nil
  | _, _ :: _, .cons hparam harg hmatches hargs =>
    .cons (hparam.reorder h.classes) (harg.reorder h) hmatches (hargs.reorder h)

end

mutual

/-- A statement follows the rules as before. -/
theorem Valid.reorder {env env' : Env} (h : env.Reordered env') : {stmt : Stmt} → {block : Block} →
    Valid env stmt block → Valid env' stmt block
  | .block .., _, .block hstmts => by
    rw [h.block]
    exact .block (hstmts.reorder h.enter)
  | .varDecl .., _, .varDecl htype hfresh hinit hmatches => by
    have hinit' := hinit.reorder (h.declare _ _)
    rw [h.block] at hfresh ⊢
    exact .varDecl (htype.reorder h.classes) hfresh hinit' hmatches
  | .assign .., _, .assign htarget hvalue hmatches => by
    rw [h.block]
    exact .assign (htarget.reorder_place h) (hvalue.reorder h) hmatches
  | .indexAssign .., _, .indexAssign htarget harray hsubscript hvalue hmatches => by
    obtain ⟨entity', htarget', harray'⟩ := htarget.reorder_of_ty h harray
    rw [h.block]
    exact .indexAssign htarget' harray' (hsubscript.reorder h) (hvalue.reorder h) hmatches
  | .call .., _, .call hcallee hargs => by
    rw [h.block]
    exact .call (hcallee.reorder_method h) (hargs.reorder h)
  | .return _ none, _, .returnNothing hvoid => by
    rw [h.block]
    exact .returnNothing (h.returnTy.symm.trans hvoid)
  | .return _ (some _), _, .returnValue hvoid hvalue hmatches => by
    rw [h.returnTy] at hvoid hmatches
    rw [h.block]
    exact .returnValue hvoid (hvalue.reorder h) hmatches
  | .ifElse _ _ _ none, _, .ifThen hcond htrue => by
    rw [h.block]
    exact .ifThen (hcond.reorder h) (htrue.reorder h)
  | .ifElse _ _ _ (some _), _, .ifElse hcond htrue hfalse => by
    rw [h.block]
    exact .ifElse (hcond.reorder h) (htrue.reorder h) (hfalse.reorder h)
  | .while .., _, .while hcond hbody => by
    rw [h.block]
    exact .while (hcond.reorder h) (hbody.reorder h)
  | .for .., _, .for hinit hcond hupdate hbody => by
    rw [h.block]
    exact .for (hinit.reorder h.enter) (fun expr hsome => (hcond expr hsome).reorder
      (h.enter.with_block _)) (hupdate.reorder (h.enter.with_block _))
      (hbody.reorder (h.enter.with_block _))

theorem ValidBranch.reorder {env env' : Env} (h : env.Reordered env') : {stmt : Stmt} →
    ValidBranch env stmt → ValidBranch env' stmt
  | _, .mk hdecl hstmt => .mk hdecl (hstmt.reorder h.enter)

theorem ValidOption.reorder {env env' : Env} (h : env.Reordered env') : {stmt : Option Stmt} →
    {block : Block} → ValidOption env stmt block → ValidOption env' stmt block
  | none, _, .none => by
    rw [h.block]
    exact .none
  | some _, _, .some hstmt => .some (hstmt.reorder h)

theorem ValidAll.reorder {env env' : Env} (h : env.Reordered env') : {stmts : List Stmt} →
    {block : Block} → ValidAll env stmts block → ValidAll env' stmts block
  | [], _, .nil => by
    rw [h.block]
    exact .nil
  | _ :: _, _, .cons hstmt hrest =>
    .cons (hstmt.reorder h) (hrest.reorder (h.with_block _))

end

/-- A valid method stays valid when classes and members change their order. -/
theorem ValidMethod.reorder {classes classes' : List ClassSig} (hsame : SameClasses classes classes')
    {cls cls' : ClassSig} (hcls : cls.Reordered cls') {method : MethodDef}
    (h : ValidMethod classes cls method) : ValidMethod classes' cls' method where
  params := h.params
  body := by
    obtain ⟨returnTy, types, block, hreturn, hparams, hbody⟩ := h.body
    have henv : ∀ isStatic returnTy block, Env.Reordered
        ⟨classes, cls, isStatic, returnTy, block, [], none⟩
        ⟨classes', cls', isStatic, returnTy, block, [], none⟩ :=
      fun _ _ _ => ⟨hsame, hcls, rfl, rfl, rfl, rfl, rfl⟩
    exact ⟨returnTy, types, block, hreturn.reorder hsame,
      hparams.imp fun _ _ htype => htype.reorder hsame, hbody.reorder (henv _ _ _)⟩
  returns := h.returns

end Source

/-- The class with its fields and methods in another order. -/
structure ClassDef.Reordered (cls cls' : ClassDef) : Prop where
  rest : cls' = { cls with fields := cls'.fields, methods := cls'.methods }
  fields : cls.fields.Perm cls'.fields
  methods : cls.methods.Perm cls'.methods

namespace ClassDef.Reordered

variable {cls cls' : ClassDef}

theorem name (h : cls.Reordered cls') : cls'.name = cls.name := by
  rw [h.rest]

theorem symm (h : cls.Reordered cls') : cls'.Reordered cls := by
  refine ⟨?_, h.fields.symm, h.methods.symm⟩
  rw [h.rest]

theorem sig (h : cls.Reordered cls') : cls.sig.Reordered cls'.sig :=
  ⟨h.name.symm, h.fields.map _, h.methods.map _⟩

/-- A class follows the rules as before. -/
theorem valid (h : cls.Reordered cls') {classes classes' : List Source.ClassSig}
    (hsame : Source.SameClasses classes classes') (hvalid : Source.ValidClass classes cls) :
    Source.ValidClass classes' cls' where
  members := h.sig.memberNames.nodup_iff.1 hvalid.members
  fields := by
    intro field hmem
    obtain ⟨ty, hty⟩ := hvalid.fields field (h.fields.symm.subset hmem)
    exact ⟨ty, hty.reorder hsame⟩
  methods := fun method hmem =>
    (hvalid.methods method (h.methods.symm.subset hmem)).reorder hsame h.sig

end ClassDef.Reordered

/-- The program with its classes in another order, and with the fields and methods of each class in
another order. -/
def Package.Reordered (package package' : Package) : Prop :=
  package'.span = package.span ∧ ∃ classes, package.classes.Perm classes ∧
    List.Forall₂ ClassDef.Reordered classes package'.classes

namespace Package.Reordered

open Walk

variable {package package' : Package}

theorem symm (h : package.Reordered package') : package'.Reordered package := by
  obtain ⟨hspan, classes, hperm, hsame⟩ := h
  obtain ⟨mid, hsame', hperm'⟩ := List.perm_comp_forall₂ hperm hsame
  exact ⟨hspan.symm, mid, hperm'.symm, hsame'.flip.imp fun _ _ h => h.symm⟩

theorem back (h : package.Reordered package') {cls' : ClassDef} (hmem : cls' ∈ package'.classes) :
    ∃ cls ∈ package.classes, cls.Reordered cls' := by
  obtain ⟨-, classes, hperm, hsame⟩ := h
  obtain ⟨cls, hcls, hreordered⟩ := exists_of_mem_results hsame hmem
  exact ⟨cls, hperm.symm.subset hcls, hreordered⟩

theorem forth (h : package.Reordered package') {cls : ClassDef} (hmem : cls ∈ package.classes) :
    ∃ cls' ∈ package'.classes, cls.Reordered cls' := by
  obtain ⟨cls', hcls', hreordered⟩ := h.symm.back hmem
  exact ⟨cls', hcls', hreordered.symm⟩

/-- Bodies find the same classes. -/
theorem sameClasses (h : package.Reordered package') :
    Source.SameClasses (Source.classesOf package) (Source.classesOf package') := by
  refine Source.SameClasses.append_left ⟨?_, ?_⟩ _
  · refine List.forall_mem_map.2 fun cls hmem => ?_
    obtain ⟨cls', hcls', hreordered⟩ := h.forth hmem
    exact ⟨cls'.sig, List.mem_map_of_mem hcls', hreordered.sig⟩
  · refine List.forall_mem_map.2 fun cls' hmem => ?_
    obtain ⟨cls, hcls, hreordered⟩ := h.back hmem
    exact ⟨cls.sig, List.mem_map_of_mem hcls, hreordered.sig.symm⟩

/-- Reordering permutes the class names. -/
theorem names (h : package.Reordered package') : ((Source.classesOf package).map (·.name)).Perm
    ((Source.classesOf package').map (·.name)) := by
  obtain ⟨-, classes, hperm, hsame⟩ := h
  have hnames : classes.map (·.name) = package'.classes.map (·.name) :=
    (map_results (f := ClassDef.name) (fun _ _ h => h.name) hsame).symm
  unfold Source.classesOf
  rw [List.map_append, List.map_append, List.map_map, List.map_map]
  exact (List.Perm.refl _).append ((hperm.map _).trans (hnames ▸ List.Perm.refl _))

/-- An accepted program is accepted in another order. -/
theorem accepts (h : package.Reordered package')
    (haccepted : ∃ checked, (package.check .any).1 = .ok checked) :
    ∃ checked, (package'.check .any).1 = .ok checked := by
  rw [Package.check_eq_ok_iff, ClassDef.analyzeAll_iff] at haccepted ⊢
  obtain ⟨⟨hnodup, hclasses⟩, cls, hcls, method, hmethod, hentry⟩ := haccepted
  refine ⟨⟨h.names.nodup_iff.1 hnodup, fun cls' hmem => ?_⟩, ?_⟩
  · obtain ⟨cls, hcls, hreordered⟩ := h.back hmem
    exact hreordered.valid h.sameClasses (hclasses cls hcls)
  · obtain ⟨cls', hcls', hreordered⟩ := h.forth hcls
    exact ⟨cls', hcls', method, hreordered.methods.subset hmethod, hentry⟩

end Package.Reordered

namespace Package

/-- Whether a program is accepted does not depend on the order of its classes, nor on the order of
the fields and of the methods of a class. -/
theorem check_reordered {package package' : Package} (h : package.Reordered package') :
    (∃ checked, (package.check .any).1 = .ok checked) ↔
      ∃ checked, (package'.check .any).1 = .ok checked :=
  ⟨h.accepts, h.symm.accepts⟩

/-- The program read from its end, class by class and member by member. -/
def reversed (package : Package) : Package :=
  { package with
    classes := (package.classes.map fun cls =>
      { cls with fields := cls.fields.reverse, methods := cls.methods.reverse }).reverse }

theorem reordered_reversed (package : Package) : package.Reordered package.reversed := by
  refine ⟨rfl, package.classes.reverse, (List.reverse_perm _).symm, ?_⟩
  unfold reversed
  rw [← List.map_reverse, List.forall₂_map_right_iff]
  exact List.forall₂_same.2 fun cls _ =>
    ⟨rfl, (List.reverse_perm _).symm, (List.reverse_perm _).symm⟩

/-- A program whose `main` calls `next`, which returns `start + Step.size`. -/
def forwardUses : Package where
  classes := [{
    name := "Main"
    fields := [{ modifiers := { isStatic := true }, type := .int {}, name := "start" }]
    methods := [
      .main [.println (.call {} (.ofPath "next") [])],
      { modifiers := { isStatic := true }
        returnType := .int {}
        name := "next"
        params := []
        body := [.return {} (some
          (.binary {} .add (.ref {} (.ofPath "start")) (.ref {} (.ofPath "Step.size"))))] }] }, {
    name := "Step"
    fields := [
      { modifiers := { isStatic := true }, type := .int {}, name := "size" },
      { modifiers := {}, type := .array {} (.named {} "Main"), name := "users" }]
    methods := [] }]

theorem check_forwardUses : forwardUses.Reordered forwardUses.reversed ∧
    (forwardUses.check .any).1.toBool = true ∧
      ((∃ checked, (forwardUses.check .any).1 = .ok checked) ↔
        ∃ checked, (forwardUses.reversed.check .any).1 = .ok checked) :=
  ⟨reordered_reversed _, by decide +kernel, check_reordered (reordered_reversed _)⟩

end Package

end SmallJava
