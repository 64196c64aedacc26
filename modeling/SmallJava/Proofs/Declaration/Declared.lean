import SmallJava.Proofs.Declaration.Describes

namespace SmallJava

open Walk

/-- The classes that every program finds in place, as they would be written. -/
def Builtins.classDefs : List ClassDef := [
  { name := "System"
    fields := [{ modifiers := { isStatic := true }, type := .named {} "_PrintStream", name := "out"
                 binding := some ⟨3⟩ }]
    methods := []
    binding := some ⟨0⟩ },
  { name := "_PrintStream"
    fields := []
    methods := [{ modifiers := { isStatic := true }, returnType := .void {}, name := "println"
                  params := [{ type := .int {}, name := "n", binding := some ⟨5⟩ }], body := []
                  binding := some ⟨4⟩ }]
    binding := some ⟨1⟩ },
  { name := "String", fields := [], methods := [], binding := some ⟨2⟩ }]

/-- The classes that every program finds in place are declared like those it adds. -/
theorem Bindings.initial_describes : Bindings.initial.Describes Builtins.classDefs where
  builtins := rfl
  order := rfl
  methods := by
    intro m hmethod
    have hlt : m.index < 7 := by
      obtain ⟨info, hkind⟩ := (SymbolTable.signature _).isMethod_iff.1 hmethod
      exact SymbolTable.lt_size_of_kind? hkind
    obtain ⟨index⟩ := m
    have hall : ∀ index < 7, Bindings.initial.table.isMethod ⟨index⟩ = true → index = 4 := by
      decide +kernel
    obtain rfl := hall index hlt hmethod
    exact ⟨_, List.mem_cons_of_mem _ (List.mem_cons_self ..), _, List.mem_cons_self .., rfl⟩
  nodup := by decide
  names := by
    intro name c
    change (((Dict.empty.insert "System" ⟨0⟩).insert "_PrintStream" ⟨1⟩).insert "String" ⟨2⟩).get?
      name = some c ↔ _
    simp only [Dict.get?_insert, Dict.get?_empty, Builtins.classDefs, List.mem_cons, List.not_mem_nil,
      or_false, exists_eq_or_imp, exists_eq_left]
    split_ifs with hstring hprintStream hsystem
    · subst hstring; simp
    · subst hprintStream; simp
    · subst hsystem; simp
    · simp [Ne.symm hstring, Ne.symm hprintStream, Ne.symm hsystem]
  declared := by
    intro cls hcls
    simp only [Builtins.classDefs, List.mem_cons, List.not_mem_nil, or_false] at hcls
    obtain rfl | rfl | rfl := hcls
    · refine ⟨⟨0⟩, rfl, rfl, ⟨_, rfl, ClassInfo.Has.empty.withMember (d := ⟨"out", _, _⟩) (by simp)
        rfl rfl⟩, fun info hkind => ?_, fun field hfield => ?_, List.forall_mem_nil _⟩
      · obtain rfl := SymbolKind.cls.inj (Option.some.inj hkind)
        rfl
      obtain rfl := List.mem_singleton.1 hfield
      exact ⟨⟨3⟩, rfl, rfl, rfl⟩
    · refine ⟨⟨1⟩, rfl, rfl, ⟨_, rfl, ClassInfo.Has.empty.withMember (d := ⟨"println", _, _⟩)
        (by simp) rfl rfl⟩, fun info hkind => ?_, List.forall_mem_nil _, fun method hmethod => ?_⟩
      · obtain rfl := SymbolKind.cls.inj (Option.some.inj hkind)
        rfl
      obtain rfl := List.mem_singleton.1 hmethod
      exact ⟨⟨4⟩, [⟨5⟩], rfl, rfl, rfl, .cons ⟨rfl, rfl, rfl⟩ .nil⟩
    · refine ⟨⟨2⟩, rfl, rfl, ⟨_, rfl, .empty⟩, fun info hkind => ?_, List.forall_mem_nil _,
        List.forall_mem_nil _⟩
      obtain rfl := SymbolKind.cls.inj (Option.some.inj hkind)
      rfl

/-- The class without its members. -/
def ClassDef.bare (cls : ClassDef) : ClassDef := { cls with fields := [], methods := [] }

/-- A member can be declared if and only if its class is known and has no other member of this name.
    -/
theorem SymbolTable.declareMember_eq_ok_iff {cls : SymbolId} {className name : String}
    {kind : SymbolKind} (hmember : (kind.isField || kind.isMethod) = true) {span : Span}
    {table table' : SymbolTable} {ty : Ty} :
    declareMember cls className name kind span table ty = .ok table' ↔
      ∃ info, table.kind? cls = some (.cls info) ∧ info.members.contains name = false ∧
        table' = table.insertMember cls name kind ty span := by
  have hadd : declareMember cls className name kind span table ty = .ok table' ↔
      table.addMember? cls name kind ty span = some table' := by
    unfold declareMember
    cases table.addMember? cls name kind ty span <;> simp
  rw [hadd, addMember?_eq_some_iff]
  simp only [hmember, true_and]

section Phases

variable {pre post : List ClassDef} (base : ClassDef) {c : SymbolId}

/-- What a declaration with a type leaves behind, for any property that held before it. -/
theorem Walk.declareTyped_yields {ν : Type} (node : ν) (type : TypeExpr)
    (declare : SymbolTable → Ty → Except Diagnostic SymbolTable) (P : Bindings → Prop) :
    (declareTyped node type declare).Yields P (fun symbol after =>
      ∃ before ty table, P before ∧ symbol = before.table.nextId ∧
        type.resolve before.scope before.builtins = .ok ty ∧ declare before.table ty = .ok table ∧
          after = { before with table }) fun _ => True := by
  refine Yields.get_bind fun b hb => ?_
  refine (yields_lift (Check.yields_orAbort trivial)).bind fun ty => ?_
  refine (yields_lift (Check.yields_orAbort trivial)).bind fun table => ?_
  intro mid hmid
  obtain ⟨hdeclare, hresolve, rfl⟩ := hmid
  exact Check.yields_pure ⟨mid, ty, table, hb, rfl, hresolve, hdeclare, rfl⟩

/-- The table admits a member exactly if no member of the class has its name. -/
theorem Bindings.Describes.fresh {b : Bindings} {cls : ClassDef} {info : ClassInfo} {name : String}
    (h : b.Describes (pre ++ cls :: post)) (hbound : cls.binding = some c)
    (hkind : b.table.kind? c = some (.cls info)) :
    info.members.contains name = false ↔ ∀ d ∈ cls.members, d.name ≠ name := by
  obtain ⟨x, hcls⟩ := h.declared cls (by simp)
  obtain rfl := Option.some.inj (hcls.bound.symm.trans hbound)
  obtain ⟨info', hkind', hinfo⟩ := hcls.info
  obtain rfl := SymbolKind.cls.inj (Option.some.inj (hkind'.symm.trans hkind))
  exact hinfo.fresh_iff name

/-- A declared field is described with its class. -/
theorem FieldDef.declare_yields (hbound : base.binding = some c) (className : String)
    (done : List FieldDef) (field : FieldDef) : (field.declare c className).Yields
      (·.Describes (pre ++ { base with fields := done, methods := [] } :: post))
      (fun field' b =>
        b.Describes (pre ++ { base with fields := done ++ [field'], methods := [] } :: post))
      fun _ => True := by
  refine (declareTyped_yields field field.type _ _).bind fun symbol => yields_pure ?_
  rintro b ⟨before, ty, table, hdescribes, rfl, hresolve, hdeclare, rfl⟩
  obtain ⟨info, hkind, hfresh, rfl⟩ := (SymbolTable.declareMember_eq_ok_iff rfl).1 hdeclare
  have hadds := SymbolTable.AddsMember.insertMember hkind field.name (.field c field.modifiers) rfl
    ty field.span
  refine hdescribes.addMember (d := ⟨field.name, field.modifiers, some before.table.nextId⟩)
    hbound hadds rfl rfl ((hdescribes.fresh hbound hkind).1 hfresh) rfl rfl rfl hbound
    (by simp [ClassDef.members, FieldDef.member]) (by simp [SymbolKind.isField]) (fun _ => id) nofun
    (fun other hmem => ?_) fun other hmem => .inl hmem
  obtain hmem | hmem := List.mem_append.1 hmem
  · exact .inl hmem
  · obtain rfl := List.mem_singleton.1 hmem
    refine .inr ⟨before.table.nextId, rfl, hadds.new, ?_⟩
    rw [hadds.typeOf]
    exact hresolve

/-- After its fields are declared, a class is described with all of them. -/
theorem FieldDef.declareAll_yields (hbound : base.binding = some c) (className : String)
    (fields : List FieldDef) : (each (FieldDef.declare c className) fields).Yields
      (·.Describes (pre ++ { base with fields := [], methods := [] } :: post))
      (fun fields' b => b.Describes (pre ++ { base with fields := fields', methods := [] } :: post))
      fun _ => True :=
  yields_each (fun done _ b => b.Describes (pre ++ { base with fields := done, methods := [] } :: post))
    (fun done field _ => FieldDef.declare_yields base hbound className done field) fields []

/-- Declared parameters are described one by one, and nothing else changes. -/
structure ParamDef.AllDeclared (start : Bindings) (params : List ParamDef) (b : Bindings) : Prop where
  table : start.table.AddsVariables .param false b.table
  builtins : b.builtins = start.builtins
  scope : b.scope = start.scope
  params : List.Forall₂ (ParamDef.DeclaredAt b) params (params.filterMap (·.binding))

theorem ParamDef.AllDeclared.grows {start b : Bindings} {params : List ParamDef}
    (h : AllDeclared start params b) : start.Grows b :=
  h.table.grows h.builtins (congrArg Scope.classes h.scope)

/-- Declaring one more parameter extends the parameters that are declared so far. -/
theorem ParamDef.declare_yields (start : Bindings) (done : List ParamDef) (param : ParamDef) :
    param.declare.Yields (AllDeclared start done)
      (fun param' => AllDeclared start (done ++ [param'])) fun _ => True := by
  refine (declareTyped_yields param param.type _ _).bind fun symbol => yields_pure ?_
  rintro b ⟨before, ty, table, hdone, rfl, hresolve, hdeclare, rfl⟩
  obtain rfl := Except.ok.inj hdeclare
  have hadds : before.table.AddsVariables .param false
      (before.table.add param.name .param ty param.span) :=
    .add rfl _ _ _ (TypeExpr.isWritten_of_resolve hresolve) nofun
  have hgrows : before.Grows
      { before with table := before.table.add param.name .param ty param.span } := hadds.grows rfl rfl
  refine ⟨hdone.table.trans hadds, hdone.builtins, hdone.scope, ?_⟩
  rw [List.filterMap_append]
  refine List.rel_append (hdone.params.imp fun _ _ => hgrows.param) (.cons ⟨rfl, ?_, ?_⟩ .nil)
  · exact SymbolTable.kind?_add.trans (if_pos rfl)
  · exact hresolve.trans (congrArg Except.ok (SymbolTable.typeOf_add.trans (if_pos rfl)).symm)

theorem ParamDef.declareAll_yields (params : List ParamDef) (start : Bindings) :
    (each ParamDef.declare params).Yields (· = start) (AllDeclared start) fun _ => True :=
  (yields_each (fun done _ => AllDeclared start done)
    (fun done param _ => ParamDef.declare_yields start done param) params []).weaken
      (by rintro b rfl; exact ⟨.refl rfl _ _, rfl, rfl, .nil⟩) (fun _ _ => id) fun _ => id

/-- Setting the parameters of a method does not disturb the parameters themselves. -/
theorem ParamDef.DeclaredAt.setParams {b : Bindings} {m x : SymbolId} {info : MethodInfo}
    {param : ParamDef} (h : param.DeclaredAt b x) (hmethod : b.table.kind? m = some (.method info))
    (params : List SymbolId) :
    param.DeclaredAt { b with table := b.table.setParams m params } x where
  bound := h.bound
  kind := SymbolTable.kind?_setParams_of hmethod h.kind nofun
  type := h.type.trans (congrArg Except.ok SymbolTable.typeOf_setParams.symm)

/-- A declared method is described with its class. -/
theorem MethodDef.declare_yields (hbound : base.binding = some c) (className : String)
    (done : List MethodDef) (method : MethodDef) : (method.declare c className).Yields
      (·.Describes (pre ++ { base with methods := done } :: post))
      (fun method' b => b.Describes (pre ++ { base with methods := done ++ [method'] } :: post))
      fun _ => True := by
  refine (declareTyped_yields method method.returnType _ _).bind fun symbol start hstart => ?_
  obtain ⟨before, ty, table, hdescribes, rfl, hresolve, hdeclare, rfl⟩ := hstart
  obtain ⟨info, hkind, hfresh, rfl⟩ := (SymbolTable.declareMember_eq_ok_iff rfl).1 hdeclare
  refine Check.Yields.bind (Check.Yields.within (ParamDef.declareAll_yields method.params _ _ rfl))
    fun ⟨params, mid⟩ hparams => Check.yields_pure ?_
  have hinsert := SymbolTable.AddsMember.insertMember hkind method.name
    (.method { owner := c, modifiers := method.modifiers }) rfl ty method.span
  have hadds := hinsert.setParams hparams.table (params.filterMap (·.binding))
  refine hdescribes.addMember (d := ⟨method.name, method.modifiers, some before.table.nextId⟩)
    hbound hadds hparams.builtins (congrArg Scope.classes hparams.scope)
    ((hdescribes.fresh hbound hkind).1 hfresh) rfl rfl rfl hbound
    (by simp [ClassDef.members, MethodDef.member]) (by simp [SymbolKind.isField])
    (fun _ => List.mem_append_left _) (fun _ => ⟨_, List.mem_append_right _ (.head _), rfl⟩)
    (fun other hmem => .inl hmem) fun other hmem => ?_
  obtain hmem | hmem := List.mem_append.1 hmem
  · exact .inl hmem
  · obtain rfl := List.mem_singleton.1 hmem
    refine .inr ⟨before.table.nextId, params.filterMap (·.binding), rfl, hadds.new, ?_,
      hparams.params.imp fun _ _ hparam => hparam.setParams (hparams.table.kind?_eq_some hinsert.new) _⟩
    change method.returnType.resolve mid.scope mid.builtins = _
    rw [hadds.typeOf]
    exact hparams.grows.resolve hresolve

/-- After its methods are declared, a class is described with all of them. -/
theorem MethodDef.declareAll_yields (hbound : base.binding = some c) (className : String)
    (methods : List MethodDef) : (each (MethodDef.declare c className) methods).Yields
      (·.Describes (pre ++ { base with methods := [] } :: post))
      (fun methods' b => b.Describes (pre ++ { base with methods := methods' } :: post))
      fun _ => True :=
  yields_each (fun done _ b => b.Describes (pre ++ { base with methods := done } :: post))
    (fun done method _ => MethodDef.declare_yields base hbound className done method) methods []

/-- Once its members are declared, a class is described with them. -/
theorem ClassDef.declareMembers_yields (cls : ClassDef) : cls.declareMembers.Yields
    (·.Describes (pre ++ cls.bare :: post)) (fun cls' b => b.Describes (pre ++ cls' :: post))
    fun _ => True := by
  obtain ⟨name, fields, methods, span, binding⟩ := cls
  unfold declareMembers
  cases binding with
  | none =>
    refine yields_pure fun b hdescribes => ?_
    obtain ⟨c, hcls⟩ :=
      hdescribes.declared (ClassDef.bare ⟨name, fields, methods, span, none⟩) (by simp)
    cases hcls.bound
  | some c =>
    refine (Yields.within (FieldDef.declareAll_yields
      { name, fields, methods, span, binding := some c } rfl name fields)).bind
        fun fields' => ?_
    exact (Yields.within (MethodDef.declareAll_yields
      { name, fields := fields', methods, span, binding := some c } rfl name methods)).bind
        fun methods' => yields_pure fun _ => id

/-- A new class extends the classes that the bindings describe: it has the next identifier, nothing
    is known of its members yet, and what was said of the classes before it still holds. -/
theorem Bindings.Describes.addClass {b : Bindings} {found : List ClassDef} {cls : ClassDef}
    (h : b.Describes found) (hfree : b.scope.classes.get? cls.name = none) :
    Bindings.Describes { b with
      table := b.table.addClass cls.name cls.span
      scope := { b.scope with classes := b.scope.classes.insert cls.name b.table.nextId } }
      (found ++ [{ cls with binding := some b.table.nextId }.bare]) := by
  have hname : ∀ other ∈ found, other.name ≠ cls.name := by
    intro other hmem heq
    obtain ⟨c, hcls⟩ := h.declared other hmem
    have hget := (h.names other.name c).2 ⟨other, hmem, rfl, hcls.bound⟩
    rw [heq, hfree] at hget
    cases hget
  have hgrows : b.Grows { b with
      table := b.table.addClass cls.name cls.span
      scope := { b.scope with classes := b.scope.classes.insert cls.name b.table.nextId } } := by
    refine ⟨.add, fun x kind hkind => ?_, rfl, fun name c hget => ?_⟩
    · exact SymbolTable.AddsMember.nameOf_congr
        ((SymbolTable.get?_add ..).trans (if_neg (SymbolTable.ne_nextId hkind)))
    · rw [Dict.get?_insert, if_neg]
      · exact hget
      · rintro rfl
        rw [hfree] at hget
        cases hget
  refine ⟨h.builtins, ?_, fun m hmethod => ?_, ?_, fun name c => ?_, fun other hmem => ?_⟩
  · simp [SymbolTable.addClass, SymbolTable.add, SymbolKind.isClass, SymbolKind.class?, h.order,
      ClassDef.bare]
  · obtain ⟨info, hkind⟩ := (SymbolTable.signature _).isMethod_iff.1 hmethod
    obtain ⟨-, hclass⟩ | hkind := SymbolTable.add_cases hkind
    · cases hclass
    · obtain ⟨other, hmem, hother⟩ :=
        h.methods m ((SymbolTable.signature _).isMethod_iff.2 ⟨info, hkind⟩)
      exact ⟨other, List.mem_append_left _ hmem, hother⟩
  · rw [List.map_append, List.nodup_append]
    refine ⟨h.nodup, by simp, fun name hmem name' hmem' => ?_⟩
    obtain ⟨other, hin, rfl⟩ := List.mem_map.1 hmem
    obtain rfl : name' = cls.name := by simpa [ClassDef.bare] using hmem'
    exact hname other hin
  · rw [Dict.get?_insert]
    simp only [List.mem_append, List.mem_singleton]
    by_cases heq : name = cls.name
    · subst heq
      rw [if_pos rfl]
      constructor
      · rintro ⟨⟩
        exact ⟨_, .inr rfl, rfl, rfl⟩
      · rintro ⟨other, hmem | rfl, hother, hbound⟩
        · exact absurd hother (hname other hmem)
        · exact hbound
    · rw [if_neg heq, h.names]
      constructor
      · rintro ⟨other, hmem, hother⟩
        exact ⟨other, .inl hmem, hother⟩
      · rintro ⟨other, hmem | rfl, hother, hbound⟩
        · exact ⟨other, hmem, hother, hbound⟩
        · exact absurd hother.symm heq
  · obtain hmem | hmem := List.mem_append.1 hmem
    · obtain ⟨c, hcls⟩ := h.declared other hmem
      refine ⟨c, hgrows.cls hcls fun info hkind => ?_⟩
      exact (SymbolTable.kind?_add.trans (if_neg (SymbolTable.ne_nextId hkind))).trans hkind
    · obtain rfl := List.mem_singleton.1 hmem
      have hnew : (b.table.addClass cls.name cls.span).kind? b.table.nextId = some (.cls {}) :=
        SymbolTable.kind?_add.trans (if_pos rfl)
      refine ⟨b.table.nextId, rfl, ?_, ⟨{}, hnew, .empty⟩, fun info hkind => ?_,
        by simp [ClassDef.bare], by simp [ClassDef.bare]⟩
      swap
      · obtain rfl := SymbolKind.cls.inj (Option.some.inj (hnew.symm.trans hkind))
        rfl
      unfold SymbolTable.nameOf SymbolTable.addClass
      rw [SymbolTable.get?_add, if_pos rfl]
      rfl

/-- A class is described without its members once its name is declared. -/
theorem ClassDef.declare_yields (found : List ClassDef) (cls : ClassDef) : cls.declare.Yields
    (·.Describes found) (fun cls' b => b.Describes (found ++ [cls'.bare])) fun _ => True := by
  refine Yields.get_bind fun b hdescribes => ?_
  dsimp only
  split
  next => exact fun _ _ => Check.yields_abort trivial
  next scope hscope =>
  obtain ⟨hfree, rfl⟩ : b.scope.classes.contains cls.name = false ∧
      scope = { b.scope with classes := b.scope.classes.insert cls.name b.table.nextId } := by
    unfold Scope.declareClass? at hscope
    cases hcontains : b.scope.classes.contains cls.name with
    | true => simp [hcontains] at hscope
    | false => exact ⟨rfl, by simpa [hcontains, eq_comm] using hscope⟩
  have hnone : b.scope.classes.get? cls.name = none := by
    simpa [Dict.contains] using hfree
  refine (yields_set ?_).bind fun _ => yields_pure fun _ => id
  exact hdescribes.addClass hnone

/-- Once their names are declared, all classes are described without their members. -/
theorem ClassDef.declareNames_yields (classes : List ClassDef) :
    (each ClassDef.declare classes).Yields (· = .initial)
      (fun named b => b.Describes (Builtins.classDefs ++ named.map bare)) fun _ => True := by
  have hnames := yields_each (fun done _ b => b.Describes (Builtins.classDefs ++ done.map bare))
    (fun done cls _ => (declare_yields (Builtins.classDefs ++ done.map bare) cls).weaken
      (fun _ => id) (fun _ _ h => by simpa using h) fun _ => id) classes []
  refine hnames.weaken ?_ (fun _ _ => id) fun _ => id
  rintro b rfl
  simpa using Bindings.initial_describes

/-- Once all classes and their members are declared, the program is described. -/
theorem ClassDef.declareAll_yields (classes : List ClassDef) :
    Yields (· = .initial) (each ClassDef.declare classes >>= each ClassDef.declareMembers)
      (fun classes' b => b.Describes (Builtins.classDefs ++ classes')) fun _ => True := by
  have hmembers := fun named => yields_each
    (fun done rest b => b.Describes (Builtins.classDefs ++ done ++ rest.map bare))
    (fun done cls rest => (declareMembers_yields cls).weaken (fun _ => id)
      (fun _ _ h => by simpa using h) fun _ => id) named []
  exact Yields.bind (declareNames_yields classes) fun named =>
    (hmembers named).weaken (fun _ h => by simpa using h) (fun _ _ h => by simpa using h) fun _ => id

end Phases

end SmallJava
