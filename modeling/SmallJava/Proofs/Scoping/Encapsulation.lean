import SmallJava.Proofs.Scoping.Access
import SmallJava.Proofs.Scoping.BodyPaths

/-! Encapsulation: where the members of a class are used. -/

namespace SmallJava

open Walk

namespace Scope

/-- All variables in force, and all that are hidden, have the property. -/
structure AllVars (P : SymbolId → Prop) (scope : Scope) : Prop where
  locals : ∀ name entry, scope.locals.get? name = some entry → P entry.symbol
  shadowed : ∀ hidden ∈ scope.shadowed, P hidden.entry.symbol

namespace AllVars

variable {P Q : SymbolId → Prop} {scope scope' : Scope}

theorem imp (h : scope.AllVars P) (himp : ∀ x, P x → Q x) : scope.AllVars Q :=
  ⟨fun name entry hget => himp _ (h.locals name entry hget), fun hidden hmem =>
    himp _ (h.shadowed hidden hmem)⟩

theorem enterMethod (P : SymbolId → Prop) (scope : Scope) : scope.enterMethod.AllVars P :=
  ⟨nofun, nofun⟩

theorem push (h : scope.AllVars P) : scope.push.AllVars P := ⟨h.locals, h.shadowed⟩

theorem pop (h : scope.AllVars P) : scope.pop.AllVars P where
  locals := by
    intro name entry hget
    obtain ⟨found, hmem, rfl⟩ | hkept := mem_of_get?_restore hget
    · exact h.shadowed found ((List.takeWhile_sublist _).subset hmem)
    · rw [Dict.get?_filter] at hkept
      exact h.locals name entry (Option.filter_eq_some_iff.1 hkept).1
  shadowed := fun hidden hmem => h.shadowed hidden ((List.dropWhile_sublist _).subset hmem)

/-- One more variable with the property may be declared. -/
theorem declareLocal (h : scope.AllVars P) {name : String} {x : SymbolId} {span : Span}
    (hdeclare : scope.declareLocal name x span = .ok scope') (hx : P x) : scope'.AllVars P := by
  have hlocals : ∀ other entry, (scope.locals.insert name ⟨x, scope.depth⟩).get? other = some entry →
      P entry.symbol := by
    intro other entry hget
    rw [Dict.get?_insert] at hget
    split at hget
    next =>
      obtain rfl := Option.some.inj hget
      exact hx
    next => exact h.locals other entry hget
  unfold Scope.declareLocal at hdeclare
  dsimp only at hdeclare
  split at hdeclare
  next =>
    obtain rfl := Except.ok.inj hdeclare
    exact ⟨hlocals, h.shadowed⟩
  next entry hget =>
    split at hdeclare
    next => cases hdeclare
    next =>
    obtain rfl := Except.ok.inj hdeclare
    exact ⟨hlocals, List.forall_mem_cons.2 ⟨h.locals name entry hget, h.shadowed⟩⟩

end AllVars

end Scope

namespace Bindings

/-- All is declared: what classes have is their own, and names of classes are no members. -/
structure Walled (start : Bindings) : Prop where
  isSealed : start.table.Sealed
  classes : ∀ name c, start.scope.classes.get? name = some c → start.table.ownerOf? c = none
  arrayLength : start.table.ownerOf? start.builtins.arrayLength = none

/-- Since all was declared, nothing but local variables was added. -/
structure Within (start b : Bindings) : Prop where
  table : start.table.AddsLocals false b.table
  builtins : b.builtins = start.builtins
  classes : b.scope.classes = start.scope.classes

/-- In the methods of a class with these members, all variables are variables. -/
structure InClass (start : Bindings) (members : Dict String SymbolId) (b : Bindings) : Prop
    extends start.Within b where
  members : b.scope.members = members
  vars : b.scope.AllVars fun x => b.table.ownerOf? x = none

variable {start b : Bindings} {members : Dict String SymbolId} {cls : SymbolId}

theorem Within.refl (start : Bindings) : start.Within start := ⟨.refl rfl false _, rfl, rfl⟩

theorem Within.enterClass (h : start.Within b) (members : Dict String SymbolId) :
    start.InClass members { b with scope := b.scope.enterClass members } :=
  ⟨⟨h.table, h.builtins, h.classes⟩, rfl, .enterMethod _ _⟩

namespace InClass

theorem enterMethod (h : start.InClass members b) :
    start.InClass members { b with scope := b.scope.enterMethod } :=
  ⟨⟨h.table, h.builtins, h.classes⟩, h.members, .enterMethod _ _⟩

theorem declareLocal (h : start.InClass members b) {name : String} {x : SymbolId} {span : Span}
    {scope' : Scope} (hdeclare : b.scope.declareLocal name x span = .ok scope')
    (hx : b.table.ownerOf? x = none) : start.InClass members { b with scope := scope' } := by
  obtain ⟨-, hclasses, hmembers, -⟩ := Scope.declareLocal_eq hdeclare
  exact ⟨⟨h.table, h.builtins, hclasses.trans h.classes⟩, hmembers.trans h.members,
    h.vars.declareLocal hdeclare hx⟩

/-- A new local variable is no member either. -/
theorem addLocal (h : start.InClass members b) {type : TypeExpr} {name : String} {span : Span}
    {ty : Ty} {scope' : Scope} (hresolve : type.resolve b.scope b.builtins = .ok ty)
    (hdeclare : b.scope.declareLocal name b.table.nextId span = .ok scope') :
    start.InClass members { b with table := b.table.add name .localVar ty span, scope := scope' } := by
  have hadds : b.table.AddsLocals false (b.table.add name .localVar ty span) :=
    .add rfl _ _ _ (TypeExpr.isWritten_of_resolve hresolve) nofun
  have hnew : (b.table.add name .localVar ty span).ownerOf? b.table.nextId = none := by
    rw [SymbolTable.ownerOf?, SymbolTable.kind?_add, if_pos rfl]
    rfl
  obtain ⟨-, hclasses, hmembers, -⟩ := Scope.declareLocal_eq hdeclare
  refine ⟨⟨h.table.trans hadds, h.builtins, hclasses.trans h.classes⟩, hmembers.trans h.members, ?_⟩
  exact (h.vars.imp fun x hx => (hadds.agreesOnMembers.ownerOf?_eq x).trans hx).declareLocal hdeclare hnew

/-- In the methods of a class bare names of members are those of the class. -/
theorem guarded (h : start.InClass members b) (hstart : start.Walled)
    (hmembers : ∀ name x, members.get? name = some x → start.table.HasMember cls name x) :
    b.Guarded cls where
  isSealed := h.table.agreesOnMembers.isSealed hstart.isSealed
  locals := h.vars.locals
  members := by
    intro name x hget
    exact h.table.agreesOnMembers.hasMember (hmembers name x (h.members ▸ hget))
  classes := by
    intro name c hget
    rw [h.table.agreesOnMembers.ownerOf?_eq]
    exact hstart.classes name c (h.classes ▸ hget)
  arrayLength := by
    rw [h.table.agreesOnMembers.ownerOf?_eq, h.builtins]
    exact hstart.arrayLength

/-- In a method of the class, all members are used as they may be. -/
theorem steady (hstart : start.Walled) {method : MethodContext}
    (hmembers : ∀ name x, members.get? name = some x → start.table.HasMember method.cls name x) :
    Steady method (fun target => ∀ part ∈ target.paths, part.Encapsulated start.table method.cls)
      (start.InClass members) := by
  have hbinds : ∀ {b : Bindings} {env : Env}, start.InClass members b → env.toBindings = b →
      env.method = method →
        env.Binds fun target => ∀ part ∈ target.paths, part.Encapsulated start.table method.cls := by
    rintro _ env h rfl rfl target target' ty hanalyze part hmem
    exact ((Reference.analyze_encapsulated (h.guarded hstart hmembers) hanalyze).2 part hmem).congr
      h.table.agreesOnMembers.symm
  exact {
    binds := fun h => hbinds h rfl rfl
    initial := fun h => hbinds h rfl rfl
    push := fun h => ⟨⟨h.table, h.builtins, h.classes⟩, h.members, h.vars.push⟩
    pop := fun h => ⟨⟨h.table, h.builtins, h.classes⟩, h.members, h.vars.pop⟩
    declare := fun h => h.addLocal }

end InClass

end Bindings

/-- All paths in a method, and the paths before their dots. -/
def MethodDef.paths (method : MethodDef) : List Reference :=
  (Stmt.allStmts method.body).flatMap fun stmt =>
    (stmt.path?.toList ++ stmt.own.flatMap fun expr => expr.exprs.filterMap (·.path?)).flatMap (·.paths)

/-- What holds of the paths of all statements holds of all paths of the method. -/
theorem MethodDef.forall_mem_paths {P : Reference → Prop} {method : MethodDef}
    (h : ∀ s ∈ Stmt.allStmts method.body, s.OwnPaths fun target => ∀ part ∈ target.paths, P part) :
    ∀ path ∈ method.paths, P path := by
  intro path hmem
  obtain ⟨stmt, hstmt, hmem⟩ := List.mem_flatMap.1 hmem
  obtain ⟨target, htarget, hpath⟩ := List.mem_flatMap.1 hmem
  obtain htarget | htarget := List.mem_append.1 htarget
  · exact (h stmt hstmt).path target (Option.mem_toList.1 htarget) path hpath
  · obtain ⟨expr, hexpr, htarget⟩ := List.mem_flatMap.1 htarget
    obtain ⟨e, he, htarget⟩ := List.mem_filterMap.1 htarget
    exact (h stmt hstmt).exprs expr hexpr e he target htarget path hpath

section Bodies

variable {start : Bindings} {classes : List ClassDef} {cls : ClassDef} {c : SymbolId}

/-- The members in the methods are used as they may be in the class. -/
def MethodDef.Encapsulated (table : SymbolTable) (c : SymbolId) (method : MethodDef) : Prop :=
  ∀ path ∈ method.paths, path.Encapsulated table c

/-- A method that is declared in a class uses members as it may. -/
theorem MethodDef.analyze_encapsulated {members : Dict String SymbolId} {method : MethodDef}
    {m : SymbolId} {params : List SymbolId} (hstart : start.Walled)
    (hmembers : ∀ name x, members.get? name = some x → start.table.HasMember c name x)
    (hmethod : method.DeclaredAt start c m params) :
    (method.analyze c).Yields (start.InClass members)
      (fun method' b => (method'.head = method.head ∧ method'.Encapsulated start.table c) ∧
        start.InClass members b) fun _ => True := by
  unfold analyze
  rw [hmethod.bound]
  dsimp only
  have henter : Yields (start.InClass members) (onScope Scope.enterMethod : Walk MethodDef Unit)
      (fun _ => start.InClass members) fun _ => True := yields_onScope fun _ hb => hb.enterMethod
  refine henter.bind fun _ => ?_
  have hparams : (each ParamDef.enter method.params).Yields (start.InClass members)
      (fun params b => params = method.params ∧ start.InClass members b) fun _ => True := by
    refine ParamDef.enterAll_keeps fun param hmem b x scope' hb hbound hdeclare => ?_
    obtain ⟨p, hp⟩ := hmethod.param hmem
    obtain rfl := Option.some.inj (hbound.symm.trans hp.bound)
    refine hb.declareLocal hdeclare ?_
    rw [SymbolTable.ownerOf?, hb.table.kind?_eq_some hp.kind]
    rfl
  refine (Yields.within hparams).bind fun params => Yields.intro fun hparams => ?_
  subst hparams
  refine Yields.get_bind fun b hb => ?_
  have hsteady : Bindings.Steady ⟨c, method.modifiers.isStatic, b.table.typeOf m⟩ _ _ :=
    Bindings.InClass.steady hstart hmembers
  refine (Yields.within ((Stmt.analyzeAll_paths hsteady method.body).from_state hb)).bind
    fun body => Yields.intro fun hbody => ?_
  refine yields_report.bind fun _ => ?_
  refine yields_pure fun b hb => ?_
  exact ⟨⟨by simp [head, hmethod.bound], MethodDef.forall_mem_paths hbody⟩, hb⟩

/-- A declared class uses members as it may, in all its methods. -/
theorem ClassDef.analyze_encapsulated (hstart : start.Walled) (hcls : cls.DeclaredAt start c) :
    cls.analyze.Yields start.Within
      (fun cls' b => (cls'.head = cls.head ∧
        ∀ method ∈ cls'.methods, method.Encapsulated start.table c) ∧ start.Within b)
      fun _ => True := by
  unfold analyze
  rw [hcls.bound]
  refine Yields.get_bind fun b hb => ?_
  obtain ⟨info, hkind, -⟩ := hcls.info
  have hfound : (b.table.classInfo? c).getD {} = info := by
    simp [SymbolTable.classInfo?_eq_some_iff.2 (hb.table.kind?_eq_some hkind)]
  rw [hfound]
  refine (yields_onScope (Q := fun _ => start.InClass info.members) ?_).bind fun _ => ?_
  · rintro _ rfl
    exact hb.enterClass info.members
  have hmethods := yields_forall (start.InClass info.members) cls.methods fun method hmethod => by
    obtain ⟨m, params, hm⟩ := hcls.methods method hmethod
    exact MethodDef.analyze_encapsulated hstart
      (fun _ _ hget => hstart.isSealed.hasMember hkind hget) hm
  refine (Yields.within hmethods).bind fun methods => Yields.intro fun hresults =>
    yields_pure fun b hb => ⟨⟨?_, fun method hmem => ?_⟩, hb.toWithin⟩
  · have hheads := map_results (f := MethodDef.head) (fun _ _ h => h.1) hresults
    simp [head, hheads, hcls.bound]
  · obtain ⟨_, -, -, hmethod⟩ := exists_of_mem_results hresults hmem
    exact hmethod

/-- No member of a class is a class. -/
theorem ClassDef.kind_of_mem_memberDecls {decl : Decl} (hmem : decl ∈ cls.memberDecls) :
    decl.kind.isClass = false := by
  unfold memberDecls at hmem
  split at hmem
  next => cases hmem
  next =>
    obtain hmem | hmem := List.mem_append.1 hmem
    · obtain ⟨field, -, rfl⟩ := List.mem_map.1 hmem
      rfl
    · obtain ⟨method, -, hmem⟩ := List.mem_flatMap.1 hmem
      obtain rfl | hmem := List.mem_cons.1 hmem
      · rfl
      · obtain ⟨param, -, rfl⟩ := List.mem_map.1 hmem
        rfl

/-- Every class in the table is one of those that are declared. -/
theorem Bindings.Inventory.exists_class {b : Bindings} {declared : List ClassDef} (h : b.Inventory
    (Builtins.decls ++ declared.map ClassDef.decl ++ declared.flatMap ClassDef.memberDecls))
    {info : ClassInfo} (hkind : b.table.kind? c = some (.cls info)) :
    ∃ cls ∈ Builtins.classDefs ++ declared, cls.binding = some c := by
  obtain ⟨decl, hmem, hdecl⟩ := exists_of_mem_results h.entered
    (SymbolId.mem_upTo.2 (SymbolTable.lt_size_of_kind? hkind))
  have hclass : decl.kind.isClass = true := by
    have hbare := hdecl.kind_eq
    rw [hkind] at hbare
    rw [← Option.some.inj hbare]
    rfl
  have hmembers : ∀ classes : List ClassDef, decl ∉ classes.flatMap ClassDef.memberDecls := by
    intro classes hmem
    obtain ⟨cls, -, hmem⟩ := List.mem_flatMap.1 hmem
    rw [ClassDef.kind_of_mem_memberDecls hmem] at hclass
    cases hclass
  have hcls : decl ∈ (Builtins.classDefs ++ declared).map ClassDef.decl := by
    rw [List.map_append]
    obtain hmem | hmem := List.mem_append.1 hmem
    · obtain hmem | hmem := List.mem_append.1 hmem
      · obtain hmem | hmem := List.mem_append.1 hmem
        · obtain hmem | hmem := List.mem_append.1 hmem
          · exact List.mem_append_left _ hmem
          · exact absurd hmem (hmembers _)
        · obtain rfl := List.mem_singleton.1 hmem
          cases hclass
      · exact List.mem_append_right _ hmem
    · exact absurd hmem (hmembers _)
  obtain ⟨cls, hin, rfl⟩ := List.mem_map.1 hcls
  exact ⟨cls, hin, hdecl.bound⟩

/-- A member is declared as one of its class, with its modifiers. -/
theorem ClassDef.DeclaredAt.kind_of_mem {b : Bindings} (h : cls.DeclaredAt b c) {d : MemberDef}
    (hmem : d ∈ cls.members) {x : SymbolId} (hbound : d.binding = some x) :
    b.table.ownerOf? x = some c ∧ b.table.isPrivate x = d.modifiers.isPrivate := by
  obtain hmem | hmem := List.mem_append.1 hmem
  · obtain ⟨field, hfield, rfl⟩ := List.mem_map.1 hmem
    obtain ⟨y, hy⟩ := h.fields field hfield
    obtain rfl := Option.some.inj (hbound.symm.trans hy.bound)
    simp [SymbolTable.ownerOf?, SymbolTable.isPrivate, hy.kind, SymbolKind.owner?,
      SymbolKind.modifiers?, FieldDef.member]
  · obtain ⟨method, hmethod, rfl⟩ := List.mem_map.1 hmem
    obtain ⟨y, params, hy⟩ := h.methods method hmethod
    obtain rfl := Option.some.inj (hbound.symm.trans hy.bound)
    simp [SymbolTable.ownerOf?, SymbolTable.isPrivate, hy.kind, SymbolKind.owner?,
      SymbolKind.modifiers?, MethodDef.member]

/-- Once all is declared, what classes have is their own. -/
theorem Bindings.Describes.walled {b : Bindings} {declared : List ClassDef}
    (h : b.Describes (Builtins.classDefs ++ declared)) (hinventory : b.Inventory
      (Builtins.decls ++ declared.map ClassDef.decl ++ declared.flatMap ClassDef.memberDecls)) :
    b.Walled := by
  have hdeclared : ∀ {c info}, b.table.kind? c = some (.cls info) →
      ∃ cls : ClassDef, cls.DeclaredAt b c ∧ info.Has cls.members := by
    intro c info hkind
    obtain ⟨cls, hmem, hbound⟩ := hinventory.exists_class hkind
    obtain ⟨c', hc'⟩ := h.declared cls hmem
    obtain rfl := Option.some.inj (hbound.symm.trans hc'.bound)
    obtain ⟨info', hkind', hinfo⟩ := hc'.info
    obtain rfl := SymbolKind.cls.inj (Option.some.inj (hkind'.symm.trans hkind))
    exact ⟨cls, hc', hinfo⟩
  refine ⟨⟨fun c info name x hkind hget => ?_, fun c info name x hkind hget => ?_⟩,
    fun name c hget => ?_, ?_⟩
  · obtain ⟨cls, hc, hinfo⟩ := hdeclared hkind
    obtain ⟨d, hmem, -, hbound⟩ := (hinfo.members name x).1 hget
    exact (hc.kind_of_mem hmem hbound).1
  · obtain ⟨cls, hc, hinfo⟩ := hdeclared hkind
    obtain ⟨d, hmem, hname, hbound, hpublic⟩ := (hinfo.visible name x).1 hget
    exact ⟨(hinfo.members name x).2 ⟨d, hmem, hname, hbound⟩,
      (hc.kind_of_mem hmem hbound).2.trans hpublic⟩
  · obtain ⟨cls, hmem, -, hbound⟩ := (h.names name c).1 hget
    obtain ⟨c', hc'⟩ := h.declared cls hmem
    obtain rfl := Option.some.inj (hbound.symm.trans hc'.bound)
    obtain ⟨info, hkind, -⟩ := hc'.info
    rw [SymbolTable.ownerOf?, hkind]
    rfl
  · obtain ⟨x, hx⟩ := hinventory.exists_of_mem (List.mem_append_left _ (List.mem_append_left _
      (List.mem_append_right _ (List.mem_singleton_self _))))
    obtain rfl := Option.some.inj hx.bound
    obtain ⟨kind, hkind, hbare⟩ := Option.map_eq_some_iff.1 hx.kind_eq
    rw [h.builtins]
    change b.table.ownerOf? ⟨6⟩ = none
    rw [SymbolTable.ownerOf?, hkind]
    cases kind <;> first | rfl | cases hbare

/-- Analysis that is not cut short encapsulates the members of all classes. -/
theorem ClassDef.analyzeAll_encapsulated (classes : List ClassDef) :
    (analyzeAll classes).Yields (· = .initial)
      (fun classes' b => ∀ cls ∈ classes', ∃ c, cls.binding = some c ∧
        ∀ method ∈ cls.methods, method.Encapsulated b.table c) fun _ => True := by
  unfold analyzeAll
  rw [← bind_assoc]
  refine ((declareAll_yields classes).and (declareAll_inventory classes)).bind fun declared =>
    Yields.of_eq fun start hstart => ?_
  have hwalled := hstart.1.walled hstart.2
  have hclasses := yields_forall start.Within declared (R := fun cls cls' => ∃ c, cls'.binding = some c ∧
    ∀ method ∈ cls'.methods, method.Encapsulated start.table c) fun cls hmem => by
      obtain ⟨c, hc⟩ := hstart.1.declared cls (List.mem_append_right _ hmem)
      refine (ClassDef.analyze_encapsulated hwalled hc).weaken (fun _ => id) (fun cls' b h => ?_)
        fun _ => id
      exact ⟨⟨c, (congrArg ClassDef.binding h.1.1).trans hc.bound, h.1.2⟩, h.2⟩
  refine (hclasses.from_state (.refl start)).weaken (fun _ => id) (fun classes' b h cls hmem => ?_)
    fun _ => id
  obtain ⟨_, -, c, hbound, hmethods⟩ := exists_of_mem_results h.1 hmem
  exact ⟨c, hbound, fun method hmethod path hpath =>
    (hmethods method hmethod path hpath).congr h.2.table.agreesOnMembers⟩

end Bodies

namespace Package

/-- Encapsulation: if analysis is not cut short, then in the methods of a class a bare name that is
bound to a field or method is bound to one of that class. After a dot, it is bound to the member of
that name of the class before the dot, where it must be static, or of the class of the object there,
and to a private one only if that is the class itself. -/
theorem members_encapsulated (package : Package) {analysis : Analysis}
    (hanalysis : package.analyze.analysis? = some analysis) :
    ∀ cls ∈ package.analyze.package.classes, ∃ c, cls.binding = some c ∧
      ∀ method ∈ cls.methods, ∀ path ∈ method.paths, path.Encapsulated analysis.table c := by
  unfold analyze at hanalysis ⊢
  cases hrun : (ClassDef.analyzeAll package.classes).run .initial |>.run [] with
  | error classes log => simp [hrun] at hanalysis
  | ok result log =>
    simp only [hrun] at hanalysis
    obtain rfl := Option.some.inj hanalysis
    exact (ClassDef.analyzeAll_encapsulated package.classes .initial rfl).ok hrun

/-- In the program `counting`, a private field is used after `this`, a method after a variable, and
a static field after its class. -/
theorem counting_encapsulated : ∃ analysis, counting.analyze.analysis? = some analysis ∧
    (∀ cls ∈ counting.analyze.package.classes, ∃ c, cls.binding = some c ∧
      ∀ method ∈ cls.methods, ∀ path ∈ method.paths, path.Encapsulated analysis.table c) ∧
    ((counting.analyze.package.classes.flatMap (·.methods)).flatMap (·.paths)).filterMap (fun path =>
      path.lastName?.map fun name => (name.name, name.binding)) =
        [("n", some ⟨9⟩), ("by", some ⟨11⟩), ("sum", some ⟨15⟩), ("total", some ⟨12⟩),
          ("Main", some ⟨8⟩), ("add", some ⟨10⟩), ("c", some ⟨16⟩)] := by
  have hrun : counting.analyze.analysis?.isSome = true := by decide +kernel
  obtain ⟨analysis, hanalysis⟩ := Option.isSome_iff_exists.1 hrun
  exact ⟨analysis, hanalysis, members_encapsulated counting hanalysis, by decide +kernel⟩

end Package

end SmallJava
