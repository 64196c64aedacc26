import SmallJava.Analysis.Package
import SmallJava.Proofs.Declaration.WellFormed
import SmallJava.Proofs.Typing.Discipline

namespace SmallJava

open Walk

/-- The built-in method prints its one argument and needs no object. -/
structure SymbolTable.HasPrintln (table : SymbolTable) (builtins : Builtins) : Prop where
  kind : ∃ owner, table.kind? builtins.println = some (.method
    { owner, modifiers := { isStatic := true }, params := [builtins.printlnArg] })
  typeOf : table.typeOf builtins.println = .void

/-- The declarations are well formed and include the built-in ones, and the names of
    classes denote classes. -/
structure Bindings.WellFormed (strict : Bool) (b : Bindings) : Prop where
  table : b.table.WellFormed strict
  println : b.table.HasPrintln b.builtins
  arrayLength : b.table.kind? b.builtins.arrayLength = some .arrayLength
  arrayLengthTy : b.table.typeOf b.builtins.arrayLength = .int
  classes : ∀ name x, b.scope.classes.get? name = some x →
    ∃ info, b.table.kind? x = some (.cls info)

namespace Bindings.WellFormed

variable {strict : Bool} {b : Bindings}

/-- More declarations leave the built-in ones and the classes in place. -/
theorem extend (h : b.WellFormed strict) {b' : Bindings} (hextends : b.table.Extends b'.table)
    (htable : b'.table.WellFormed strict) (hbuiltins : b'.builtins = b.builtins)
    (hclasses : b'.scope.classes = b.scope.classes) : b'.WellFormed strict where
  table := htable
  println := by
    rw [hbuiltins]
    obtain ⟨⟨owner, hkind⟩, hty⟩ := h.println
    exact ⟨⟨owner, hextends.kept _ _ hkind nofun⟩, (hextends.typeOf _ _ hkind).trans hty⟩
  arrayLength := by
    rw [hbuiltins]
    exact hextends.kept _ _ h.arrayLength nofun
  arrayLengthTy := by
    rw [hbuiltins, hextends.typeOf _ _ h.arrayLength]
    exact h.arrayLengthTy
  classes := by
    intro name x hget
    rw [hclasses] at hget
    obtain ⟨info, hkind⟩ := h.classes name x hget
    exact hextends.cls x info hkind

/-- In well-formed bindings the declarations agree with each other. -/
theorem coherent (h : b.WellFormed strict) : b.table.Coherent b.builtins where
  members := by
    intro cls info name x hinfo hget
    exact h.table.members cls info name x (SymbolTable.classInfo?_eq_some_iff.1 hinfo) hget
  params := by
    intro m info p hkind hp
    obtain ⟨hlt, hparams⟩ := (h.table.params m info hkind).after p hp
    exact hparams p hlt (Nat.le_refl _)
  written := h.table.written
  arrayLength := h.arrayLength
  arrayLengthTy := h.arrayLengthTy

end Bindings.WellFormed

/-- One part of a program adds declarations, among them these methods in order. -/
structure Declares (before after : Bindings) (methods : List SymbolId) : Prop where
  extends_ : before.table.Extends after.table
  builtins : after.builtins = before.builtins
  spans : SymbolId.Spans methods before.table.size after.table.size
  methods : ∀ x info, after.table.kind? x = some (.method info) →
    (∃ info, before.table.kind? x = some (.method info)) ∨ x ∈ methods

namespace Declares

variable {before mid after : Bindings} {methods methods' : List SymbolId}

theorem refl (b : Bindings) : Declares b b [] :=
  ⟨.refl _, rfl, .nil _ _, fun _ info hkind => .inl ⟨info, hkind⟩⟩

/-- Two passes in a row declare the methods of the first and then those of the second. -/
theorem trans (h : Declares before mid methods) (h' : Declares mid after methods') :
    Declares before after (methods ++ methods') where
  extends_ := h.extends_.trans h'.extends_
  builtins := h'.builtins.trans h.builtins
  spans := h.spans.append h'.spans h.extends_.size h'.extends_.size
  methods := by
    intro x info hkind
    obtain ⟨info', hkind⟩ | hmem := h'.methods x info hkind
    · exact (h.methods x info' hkind).imp_right fun hmem => List.mem_append_left _ hmem
    · exact .inr (List.mem_append_right _ hmem)

end Declares

/-- The method is declared in the class as it is written, and follows those of the rules on
    `void` and on updates of loops that are in force. -/
structure MethodDef.DeclaredAs (strict plain : Bool) (table : SymbolTable) (cls : SymbolId)
    (method : MethodDef) (m : SymbolId) (info : MethodInfo) : Prop where
  bound : method.binding = some m
  kind : table.kind? m = some (.method info)
  owner : info.owner = cls
  modifiers : info.modifiers = method.modifiers
  params : method.params.map (·.binding) = info.params.map some
  isVoid : (table.typeOf m).isVoid = method.returnType.isVoid
  plainUpdates : plain = true → Stmt.allPlainUpdates method.body = true
  avoidsVoid : strict = true → Stmt.allAvoidVoid method.body = true

/-- A method stays declared while the table grows. -/
theorem MethodDef.DeclaredAs.extend {strict plain : Bool} {table table' : SymbolTable} {cls m : SymbolId}
    {method : MethodDef} {info : MethodInfo} (h : method.DeclaredAs strict plain table cls m info)
    (hextends : table.Extends table') : method.DeclaredAs strict plain table' cls m info :=
  { h with
    kind := hextends.kept m _ h.kind nofun
    isVoid := by
      rw [hextends.typeOf m _ h.kind]
      exact h.isVoid }

/-- The class and its methods are declared. -/
def ClassDef.DeclaredIn (strict plain : Bool) (table : SymbolTable) (cls : ClassDef) : Prop :=
  ∃ x info, cls.binding = some x ∧ table.kind? x = some (.cls info) ∧
    ∀ method ∈ cls.methods, ∃ m info, method.DeclaredAs strict plain table x m info

/-- The symbols of the methods of a class. -/
def ClassDef.methodIds (cls : ClassDef) : List SymbolId := cls.methods.filterMap (·.binding)

/-- The methods of a class stay declared while the table grows. -/
theorem ClassDef.DeclaredIn.extend {strict plain : Bool} {table table' : SymbolTable} {cls : ClassDef}
    (h : cls.DeclaredIn strict plain table) (hextends : table.Extends table') :
    cls.DeclaredIn strict plain table' := by
  obtain ⟨x, info, hbound, hkind, hmethods⟩ := h
  obtain ⟨info', hkind'⟩ := hextends.cls x info hkind
  refine ⟨x, info', hbound, hkind', fun method hmem => ?_⟩
  obtain ⟨m, info, hdeclared⟩ := hmethods method hmem
  exact ⟨m, info, hdeclared.extend hextends⟩

/-- Following those of the rules on `void` and on updates of loops that are in force. -/
structure MethodDef.Disciplined (strict plain : Bool) (method : MethodDef) : Prop where
  plainUpdates : plain = true → Stmt.allPlainUpdates method.body = true
  avoidsVoid : strict = true → method.avoidsVoid = true

structure ClassDef.Disciplined (strict plain : Bool) (cls : ClassDef) : Prop where
  fields : strict = true → ∀ field ∈ cls.fields, field.type.avoidsVoid = true
  methods : ∀ method ∈ cls.methods, method.Disciplined strict plain

section Declarations

variable {strict plain : Bool}

/-- A declaration with a type resolves the type first and then takes the next identifier of the
    table. -/
theorem Walk.declareTyped_ensures {ν : Type} (node : ν) (type : TypeExpr)
    (declare : SymbolTable → Ty → Except Diagnostic SymbolTable) :
    (declareTyped node type declare).Ensures fun before symbol after =>
      symbol = before.table.nextId ∧ ∃ ty table, type.resolve before.scope before.builtins = .ok ty ∧
        declare before.table ty = .ok table ∧ after = { before with table } := by
  refine ensures_get.bind fun bindings => ?_
  refine (ensures_lift Check.ensures_orAbort).bind fun ty => ?_
  refine (ensures_lift Check.ensures_orAbort).bind fun table => ?_
  refine ensures_set.bind fun _ => ensures_pure ?_
  rintro after mid hset mid ⟨hdeclare, rfl⟩ mid ⟨hresolve, rfl⟩ before ⟨rfl, rfl⟩
  subst hset
  exact ⟨rfl, ty, table, hresolve, hdeclare, rfl⟩

/-- A member that is declared without a report belongs to a known class, and the table is the one
    with this member inserted. -/
theorem SymbolTable.declareMember_eq {cls : SymbolId} {className name : String} {kind : SymbolKind}
    {span : Span} {table table' : SymbolTable} {ty : Ty}
    (hdeclare : declareMember cls className name kind span table ty = .ok table') :
    (∃ info, table.kind? cls = some (.cls info)) ∧
      table' = table.insertMember cls name kind ty span := by
  unfold declareMember at hdeclare
  split at hdeclare
  next found hadd =>
    obtain rfl := Except.ok.inj hdeclare
    obtain ⟨info, hcls, -, -, rfl⟩ := addMember?_eq_some_iff.1 hadd
    exact ⟨⟨info, hcls⟩, rfl⟩
  next => cases hdeclare

/-- A declared field is a member of its class. -/
theorem FieldDef.declare_ensures (strict : Bool) (cls : SymbolId) (className : String) (field : FieldDef) :
    (field.declare cls className).Ensures fun before _ after => before.WellFormed strict →
      (strict = true → field.type.avoidsVoid = true) →
        after.WellFormed strict ∧ Declares before after [] := by
  refine (declareTyped_ensures field field.type _).bind fun symbol => ensures_pure ?_
  rintro mid before ⟨rfl, ty, table, hresolve, hdeclare, rfl⟩ hwf hvoid
  obtain ⟨⟨info, hcls⟩, rfl⟩ := SymbolTable.declareMember_eq hdeclare
  have hextends : before.table.Extends (before.table.insertMember cls field.name
      (.field cls field.modifiers) ty field.span) := .insertMember hcls
  have htable : (before.table.insertMember cls field.name (.field cls field.modifiers) ty
      field.span).WellFormed strict :=
    hwf.table.insertMember hcls (.inl ⟨field.modifiers, rfl⟩)
      (TypeExpr.isWritten_of_resolve hresolve)
      fun hstrict _ => TypeExpr.avoidsVoid_of_resolve hresolve (hvoid hstrict)
  refine ⟨hwf.extend hextends htable rfl rfl, hextends, rfl, .nil _ _, fun x info hkind => ?_⟩
  change (before.table.insertMember _ _ _ _ _).kind? x = _ at hkind
  obtain ⟨-, hfield⟩ | ⟨-, hfield⟩ | ⟨-, hkind⟩ := SymbolTable.insertMember_cases hcls hkind
  · cases hfield
  · cases hfield
  · exact .inl ⟨info, hkind⟩

/-- What the declaration of parameters ensures: they come one after the other. -/
def ParamDef.DeclaresAll (strict : Bool) (params : List ParamDef) (before : Bindings)
    (params' : List ParamDef) (after : Bindings) : Prop :=
  (strict = true → ∀ param ∈ params, param.type.avoidsVoid = true) →
    ∃ ids, params'.map (·.binding) = ids.map some ∧
      SymbolId.Spans ids before.table.size after.table.size ∧
      before.table.AddsVariables .param strict after.table ∧ after.builtins = before.builtins ∧
      after.scope = before.scope

/-- Declaring a parameter adds one variable to the table and leaves what is in scope as it was. -/
theorem ParamDef.declare_ensures (strict : Bool) (param : ParamDef) :
    param.declare.Ensures fun before param' after =>
      (strict = true → param.type.avoidsVoid = true) →
        ∃ x, param'.binding = some x ∧ SymbolId.Spans [x] before.table.size after.table.size ∧
          before.table.AddsVariables .param strict after.table ∧ after.builtins = before.builtins ∧
          after.scope = before.scope := by
  refine (declareTyped_ensures param param.type _).bind fun symbol => ensures_pure ?_
  rintro mid before ⟨rfl, ty, table, hresolve, hdeclare, rfl⟩ hvoid
  obtain rfl := Except.ok.inj hdeclare
  refine ⟨before.table.nextId, rfl, .singleton (Nat.le_refl _) (by simp [SymbolTable.nextId]),
    SymbolTable.AddsVariables.add rfl _ _ _ (TypeExpr.isWritten_of_resolve hresolve) ?_, rfl, rfl⟩
  exact fun hstrict => TypeExpr.avoidsVoid_of_resolve hresolve (hvoid hstrict)

/-- Declaring the parameters of a method adds one variable for each of them. -/
theorem ParamDef.declareAll_ensures (strict : Bool) (params : List ParamDef) :
    (each ParamDef.declare params).Ensures (DeclaresAll strict params) := by
  refine ensures_each (ParamDef.declare_ensures strict) ?_ ?_ params
  · exact fun b _ => ⟨[], rfl, .nil _ _, .refl rfl strict _, rfl, rfl⟩
  · intro param params before param' mid params' after hparam hparams hvoid
    obtain ⟨x, hbound, hspan, hadds, hbuiltins, hscope⟩ :=
      hparam fun hstrict => hvoid hstrict param List.mem_cons_self
    obtain ⟨ids, hbounds, hspans, hadds', hbuiltins', hscope'⟩ :=
      hparams fun hstrict other hmem => hvoid hstrict other (List.mem_cons_of_mem _ hmem)
    refine ⟨x :: ids, by simp [hbound, hbounds], ?_, hadds.trans hadds',
      hbuiltins'.trans hbuiltins, hscope'.trans hscope⟩
    exact hspan.append hspans hadds.size hadds'.size

/-- Variables declared one after the other follow the symbol before them. -/
theorem SymbolTable.AddsVariables.follow {before after : SymbolTable} {m : SymbolId}
    {ids : List SymbolId} (hadds : before.AddsVariables .param strict after)
    (hlast : before.size = m.index + 1) (hspans : SymbolId.Spans ids before.size after.size) :
    after.Follow m ids where
  sorted := hspans.sorted
  after := by
    intro p hmem
    have hbounds := hspans.bounds p hmem
    refine ⟨by omega, fun q hlt hle => ?_⟩
    have hsize : q.index < after.symbols.size := Nat.lt_of_le_of_lt hle hbounds.2
    have hget : after.get? q = some after.symbols[q.index] := Array.getElem?_eq_getElem hsize
    obtain ⟨hkind, -⟩ := hadds.added q _ (by omega) hget
    simp [SymbolTable.kind?, hget, hkind]

/-- What the declaration of a method adds to the table. -/
structure SymbolTable.AddsMethod (before after : SymbolTable) (info : MethodInfo) (ty : Ty) :
    Prop where
  extends_ : before.Extends after
  lt_size : before.size < after.size
  kind : after.kind? before.nextId = some (.method info)
  typeOf : after.typeOf before.nextId = ty
  methods : ∀ x info, after.kind? x = some (.method info) →
    (∃ info, before.kind? x = some (.method info)) ∨ x = before.nextId

/-- A table stays well formed when a class gets a method whose type and parameters were resolved. -/
theorem SymbolTable.WellFormed.addMethod {table after : SymbolTable} (h : table.WellFormed strict)
    {cls : SymbolId} {info : ClassInfo} (hcls : table.kind? cls = some (.cls info)) {name : String}
    {modifiers : Modifiers} {ty : Ty} {span : Span} (hwritten : ty.isWritten = true)
    (hadds : (table.insertMember cls name (.method { owner := cls, modifiers }) ty
      span).AddsVariables .param strict after) {ids : List SymbolId}
    (hspans : SymbolId.Spans ids (table.size + 1) after.size) :
    (after.setParams table.nextId ids).WellFormed strict ∧
      table.AddsMethod (after.setParams table.nextId ids)
        { owner := cls, modifiers, params := ids } ty := by
  have hsize : (table.insertMember cls name (.method { owner := cls, modifiers }) ty span).size =
      table.size + 1 := by simp [SymbolTable.insertMember]
  have hkind := hadds.kind?_eq_some ((kind?_insertMember hcls).trans (if_pos rfl))
  have hinserted : (table.insertMember cls name (.method { owner := cls, modifiers }) ty
      span).WellFormed strict :=
    h.insertMember hcls (.inr ⟨modifiers, rfl⟩) hwritten fun _ hmethod => by cases hmethod
  refine ⟨(hinserted.addsVariables hadds).setParams hkind (hadds.follow hsize (hsize ▸ hspans)),
    ((Extends.insertMember hcls).trans hadds.extends).setParams kind?_nextId hkind, ?_, ?_, ?_, ?_⟩
  · have hle := hadds.size
    simp only [SymbolTable.setParams, size_modify]
    omega
  · exact (kind?_setParams hkind).trans (if_pos rfl)
  · rw [typeOf_setParams, hadds.typeOf_eq ((kind?_insertMember hcls).trans (if_pos rfl)),
      typeOf_insertMember, if_pos rfl]
  · intro x found hfound
    obtain ⟨heq, -⟩ | hfound := setParams_cases hkind hfound
    · exact .inr heq
    · rw [hadds.kind?_method_iff] at hfound
      obtain ⟨heq, -⟩ | ⟨-, hcls⟩ | ⟨-, hfound⟩ := insertMember_cases hcls hfound
      · exact .inr heq
      · cases hcls
      · exact .inl ⟨found, hfound⟩

/-- A declared method is a member of its class, and its parameters follow it. -/
theorem MethodDef.declare_ensures (strict plain : Bool) (cls : SymbolId) (className : String)
    (method : MethodDef) :
    (method.declare cls className).Ensures fun before method' after => before.WellFormed strict →
      method.Disciplined strict plain →
        after.WellFormed strict ∧
          ∃ m info, Declares before after [m] ∧ method'.DeclaredAs strict plain after.table cls m info := by
  refine (declareTyped_ensures method method.returnType _).bind fun symbol => ?_
  refine ((ParamDef.declareAll_ensures strict method.params).within _).bind fun params => ?_
  refine ensures_modify.bind fun _ => ensures_pure ?_
  rintro after mid hset mid' hparams before ⟨rfl, ty, table, hresolve, hdeclare, rfl⟩ hwf hmethod
  subst hset
  obtain ⟨⟨info, hcls⟩, rfl⟩ := SymbolTable.declareMember_eq hdeclare
  have havoids : strict = true → (∀ param ∈ method.params, param.type.avoidsVoid = true) ∧
      Stmt.allAvoidVoid method.body = true := by
    intro hstrict
    obtain ⟨hhead, hbody⟩ := Bool.and_eq_true_iff.1 (hmethod.avoidsVoid hstrict)
    exact ⟨List.all_eq_true.1 (Bool.and_eq_true_iff.1 hhead).2, hbody⟩
  obtain ⟨ids, hbounds, hspans, hadds, hbuiltins, hscope⟩ :=
    hparams fun hstrict => (havoids hstrict).1
  have hids : params.filterMap (·.binding) = ids := by
    have hmapped := congrArg (List.filterMap id) hbounds
    simpa [List.filterMap_map, Function.comp_def] using hmapped
  dsimp only at hspans hadds hbuiltins hscope
  have hspans : SymbolId.Spans ids (before.table.size + 1) mid.table.size := by
    simpa [SymbolTable.insertMember] using hspans
  obtain ⟨htable, hadded⟩ :=
    hwf.table.addMethod hcls (TypeExpr.isWritten_of_resolve hresolve) hadds hspans
  rw [← hids] at htable hadded
  refine ⟨hwf.extend hadded.extends_ htable hbuiltins (congrArg Scope.classes hscope),
    before.table.nextId, _, ⟨hadded.extends_, hbuiltins, ?_, ?_⟩, rfl, hadded.kind, rfl, rfl, ?_, ?_,
    hmethod.plainUpdates, fun hstrict => (havoids hstrict).2⟩
  · exact .singleton (Nat.le_refl _) hadded.lt_size
  · exact fun x info hkind => (hadded.methods x info hkind).imp_right List.mem_singleton.2
  · rw [hids]
    exact hbounds
  · rw [hadded.typeOf]
    exact TypeExpr.isVoid_of_resolve hresolve

/-- The class is declared, and its members may be. -/
def ClassDef.Named (strict plain : Bool) (table : SymbolTable) (cls : ClassDef) : Prop :=
  cls.Disciplined strict plain ∧ ∃ x info, cls.binding = some x ∧ table.kind? x = some (.cls info)

theorem ClassDef.Named.extend {table table' : SymbolTable} {cls : ClassDef}
    (h : cls.Named strict plain table) (hextends : table.Extends table') : cls.Named strict plain table' := by
  obtain ⟨hcls, x, info, hbound, hkind⟩ := h
  obtain ⟨info', hkind'⟩ := hextends.cls x info hkind
  exact ⟨hcls, x, info', hbound, hkind'⟩

/-- Declaring a class keeps the bindings well formed, adds no method and puts the class into the
    table under its name. -/
theorem ClassDef.declare_ensures (strict plain : Bool) (cls : ClassDef) :
    cls.declare.Ensures fun before cls' after => before.WellFormed strict →
      cls.Disciplined strict plain →
        after.WellFormed strict ∧ Declares before after [] ∧ cls'.Named strict plain after.table := by
  refine ensures_get.bind fun bindings => ?_
  dsimp only
  split
  next => exact fun _ => Check.ensures_abort
  next scope hscope =>
  refine ensures_set.bind fun _ => ensures_pure ?_
  rintro after _ hset before ⟨hbindings, -⟩ hwf hcls
  subst hset hbindings
  have hextends : bindings.table.Extends (bindings.table.addClass cls.name cls.span) := .add
  have hkind : (bindings.table.addClass cls.name cls.span).kind? bindings.table.nextId =
      some (.cls {}) := SymbolTable.kind?_add.trans (if_pos rfl)
  have hscope : scope.classes = bindings.scope.classes.insert cls.name bindings.table.nextId := by
    unfold Scope.declareClass? at hscope
    split at hscope
    next => cases hscope
    next =>
      obtain rfl := Option.some.inj hscope
      rfl
  have hadded : Bindings.WellFormed strict
      { bindings with table := bindings.table.addClass cls.name cls.span } :=
    hwf.extend hextends hwf.table.addClass rfl rfl
  refine ⟨⟨hadded.table, hadded.println, hadded.arrayLength, hadded.arrayLengthTy, ?_⟩,
    ⟨hextends, rfl, .nil _ _, fun x info hfound => ?_⟩, ⟨hcls.fields, hcls.methods⟩, _, _, rfl,
    hkind⟩
  · intro name x hget
    rw [hscope, Dict.get?_insert] at hget
    split at hget
    next =>
      obtain rfl := Option.some.inj hget
      exact ⟨_, hkind⟩
    next =>
      obtain ⟨info, hfound⟩ := hwf.classes name x hget
      exact hextends.cls x info hfound
  · obtain ⟨-, hmethod⟩ | hfound := SymbolTable.add_cases hfound
    · cases hmethod
    · exact .inl ⟨info, hfound⟩

/-- Declaring all classes keeps the bindings well formed and puts every class into the table under
    its name. -/
theorem ClassDef.declareAll_ensures (strict plain : Bool) : (classes : List ClassDef) →
    (each ClassDef.declare classes).Ensures fun before classes' after =>
      before.WellFormed strict → (∀ cls ∈ classes, cls.Disciplined strict plain) →
        after.WellFormed strict ∧ Declares before after [] ∧
          ∀ cls ∈ classes', cls.Named strict plain after.table := by
  refine ensures_each (ClassDef.declare_ensures strict plain) ?_ ?_
  · exact fun b hwf _ => ⟨hwf, .refl b, by simp⟩
  · intro cls classes before cls' mid classes' after hfirst hrest hwf hclasses
    obtain ⟨hmid, hdeclares, hnamed⟩ := hfirst hwf (hclasses cls List.mem_cons_self)
    obtain ⟨hafter, hdeclares', hothers⟩ :=
      hrest hmid fun other hmem => hclasses other (List.mem_cons_of_mem _ hmem)
    refine ⟨hafter, hdeclares.trans hdeclares', fun other hmem => ?_⟩
    obtain rfl | hmem := List.mem_cons.1 hmem
    · exact hnamed.extend hdeclares'.extends_
    · exact hothers other hmem

/-- Declaring the fields of a class keeps the bindings well formed and adds no method. -/
theorem FieldDef.declareAll_ensures (strict : Bool) (cls : SymbolId) (className : String) :
    (fields : List FieldDef) → (each (FieldDef.declare cls className) fields).Ensures fun before _ after =>
      before.WellFormed strict → (strict = true → ∀ field ∈ fields, field.type.avoidsVoid = true) →
        after.WellFormed strict ∧ Declares before after [] := by
  refine ensures_each (FieldDef.declare_ensures strict cls className) ?_ ?_
  · exact fun b hwf _ => ⟨hwf, .refl b⟩
  · intro field fields before field' mid fields' after hfirst hrest hwf hfields
    obtain ⟨hmid, hdeclares⟩ :=
      hfirst hwf fun hstrict => hfields hstrict field List.mem_cons_self
    obtain ⟨hafter, hdeclares'⟩ :=
      hrest hmid fun hstrict other hmem => hfields hstrict other (List.mem_cons_of_mem _ hmem)
    exact ⟨hafter, hdeclares.trans hdeclares'⟩

/-- Declaring the methods of a class keeps the bindings well formed, and every method is declared in
    the resulting table. -/
theorem MethodDef.declareAll_ensures (strict plain : Bool) (cls : SymbolId) (className : String) :
    (methods : List MethodDef) → (each (MethodDef.declare cls className) methods).Ensures fun before methods' after =>
      before.WellFormed strict → (∀ method ∈ methods, method.Disciplined strict plain) →
        after.WellFormed strict ∧ Declares before after (methods'.filterMap (·.binding)) ∧
          ∀ method ∈ methods', ∃ m info, method.DeclaredAs strict plain after.table cls m info := by
  refine ensures_each (MethodDef.declare_ensures strict plain cls className) ?_ ?_
  · exact fun b hwf _ => ⟨hwf, .refl b, by simp⟩
  · intro method methods before method' mid methods' after hfirst hrest hwf hmethods
    obtain ⟨hmid, m, info, hdeclares, hdeclared⟩ := hfirst hwf (hmethods method List.mem_cons_self)
    obtain ⟨hafter, hdeclares', hothers⟩ :=
      hrest hmid fun other hmem => hmethods other (List.mem_cons_of_mem _ hmem)
    refine ⟨hafter, ?_, fun other hmem => ?_⟩
    · rw [List.filterMap_cons_some hdeclared.bound]
      exact hdeclares.trans hdeclares'
    · obtain rfl | hmem := List.mem_cons.1 hmem
      · exact ⟨m, info, hdeclared.extend hdeclares'.extends_⟩
      · exact hothers other hmem

/-- Declaring the members of a class keeps the bindings well formed, and its methods are declared in
    the resulting table. -/
theorem ClassDef.declareMembers_ensures (strict plain : Bool) (cls : ClassDef) :
    cls.declareMembers.Ensures fun before cls' after => before.WellFormed strict →
      cls.Named strict plain before.table →
        after.WellFormed strict ∧ Declares before after cls'.methodIds ∧
          cls'.DeclaredIn strict plain after.table := by
  unfold declareMembers
  cases hbound : cls.binding with
  | none =>
    refine ensures_pure fun before _ hnamed => ?_
    obtain ⟨-, x, info, hbound', -⟩ := hnamed
    rw [hbound] at hbound'
    cases hbound'
  | some x =>
    refine ((FieldDef.declareAll_ensures strict x cls.name cls.fields).within _).bind
      fun fields => ?_
    refine ((MethodDef.declareAll_ensures strict plain x cls.name cls.methods).within _).bind
      fun methods => ensures_pure ?_
    intro after mid hmethods before hfields hwf hnamed
    obtain ⟨hcls, x', info, hbound', hkind⟩ := hnamed
    obtain rfl := Option.some.inj (hbound.symm.trans hbound')
    obtain ⟨hmid, hdeclares⟩ := hfields hwf hcls.fields
    obtain ⟨hafter, hdeclares', hdeclared⟩ := hmethods hmid hcls.methods
    obtain ⟨info', hkind'⟩ := (hdeclares.trans hdeclares').extends_.cls x info hkind
    exact ⟨hafter, hdeclares.trans hdeclares', x, info', rfl, hkind', hdeclared⟩

/-- All members of all classes are declared, in the order in which they are written. -/
theorem ClassDef.declareAllMembers_ensures (strict plain : Bool) : (classes : List ClassDef) →
    (each ClassDef.declareMembers classes).Ensures fun before classes' after =>
      before.WellFormed strict → (∀ cls ∈ classes, cls.Named strict plain before.table) →
        after.WellFormed strict ∧ Declares before after (classes'.flatMap ClassDef.methodIds) ∧
          ∀ cls ∈ classes', cls.DeclaredIn strict plain after.table := by
  refine ensures_each (ClassDef.declareMembers_ensures strict plain) ?_ ?_
  · exact fun b hwf _ => ⟨hwf, .refl b, by simp⟩
  · intro cls classes before cls' mid classes' after hfirst hrest hwf hclasses
    obtain ⟨hmid, hdeclares, hdeclared⟩ := hfirst hwf (hclasses cls List.mem_cons_self)
    obtain ⟨hafter, hdeclares', hothers⟩ := hrest hmid fun other hmem =>
      (hclasses other (List.mem_cons_of_mem _ hmem)).extend hdeclares.extends_
    refine ⟨hafter, hdeclares.trans hdeclares', fun other hmem => ?_⟩
    obtain rfl | hmem := List.mem_cons.1 hmem
    · exact hdeclared.extend hdeclares'.extends_
    · exact hothers other hmem

end Declarations

end SmallJava
