import SmallJava.Proofs.Analysis.Erase
import SmallJava.Proofs.Declaration.Quiet
import SmallJava.Proofs.Scoping.Soundness
import SmallJava.Syntax.Build

namespace SmallJava

open Walk

namespace Layer

variable {α : Type} {name : α → String} {binding : α → Option SymbolId}

/-- A layer holds the names of the bound definitions that it is made of. -/
theorem mem_of {defs : List α} {found : String} {x : SymbolId} :
    (found, x) ∈ Layer.of name binding defs ↔ ∃ d ∈ defs, name d = found ∧ binding d = some x := by
  unfold Layer.of
  simp only [List.mem_filterMap, Option.map_eq_some_iff, Prod.mk.injEq]
  constructor
  · rintro ⟨d, hmem, y, hbound, hname, rfl⟩
    exact ⟨d, hmem, hname, hbound⟩
  · rintro ⟨d, hmem, hname, hbound⟩
    exact ⟨d, hmem, x, hbound, hname, rfl⟩

/-- Of definitions with different names, the one with a name is found by it. -/
theorem lookup_of {defs : List α} (hnodup : (defs.map name).Nodup) (found : String) (x : SymbolId) :
    (Layer.of name binding defs).lookup found = some x ↔
      ∃ d ∈ defs, name d = found ∧ binding d = some x := by
  induction defs with
  | nil => simp [Layer.of]
  | cons d rest ih =>
    obtain ⟨hnew, hnodup⟩ := List.nodup_cons.1 hnodup
    have ih := ih hnodup
    have hother : ∀ d' ∈ rest, name d' ≠ name d := fun d' hmem heq =>
      hnew (heq ▸ List.mem_map_of_mem hmem)
    have hcons : Layer.of name binding (d :: rest) =
        ((binding d).map (name d, ·)).toList ++ Layer.of name binding rest := by
      unfold Layer.of
      cases hbound : binding d <;> simp [hbound]
    rw [hcons]
    simp only [List.mem_cons, exists_eq_or_imp]
    cases hbound : binding d with
    | none => simpa using ih
    | some y =>
      change List.lookup found ((name d, y) :: Layer.of name binding rest) = some x ↔ _
      rw [List.lookup_cons]
      by_cases heq : found = name d
      · subst heq
        simp only [BEq.rfl, Option.some.injEq, true_and]
        refine ⟨.inl, ?_⟩
        rintro (rfl | ⟨d', hmem, hname, -⟩)
        · rfl
        · exact absurd hname (hother d' hmem)
      · rw [beq_false_of_ne heq, ih]
        simp [Ne.symm heq]

/-- Two definitions of names that agree on what is bound find the same. -/
theorem lookup_eq {defs : List α} (hnodup : (defs.map name).Nodup) {get? : String → Option SymbolId}
    (hget : ∀ found x, get? found = some x ↔ ∃ d ∈ defs, name d = found ∧ binding d = some x)
    (found : String) : get? found = (Layer.of name binding defs).lookup found := by
  apply Option.ext
  intro x
  rw [hget, lookup_of hnodup]

end Layer

/-- The method without its body. -/
def MethodDef.head (method : MethodDef) : MethodDef := { method with body := [] }

/-- The class without the bodies of its methods. -/
def ClassDef.head (cls : ClassDef) : ClassDef := { cls with methods := cls.methods.map MethodDef.head }

section Heads

variable {cls cls' : ClassDef} {classes classes' : List ClassDef} {method method' : MethodDef}

theorem ClassDef.members_head (cls : ClassDef) : cls.head.members = cls.members := by
  simp [head, members, MethodDef.head, MethodDef.member, Function.comp_def]

theorem ClassDef.members_congr (h : cls'.head = cls.head) : cls'.members = cls.members := by
  rw [← members_head, h, members_head]

theorem Layer.of_classes_congr (h : classes'.map ClassDef.head = classes.map ClassDef.head) :
    Layer.of ClassDef.name ClassDef.binding classes' = Layer.of ClassDef.name ClassDef.binding classes := by
  have hmap : ∀ defs : List ClassDef, Layer.of ClassDef.name ClassDef.binding defs =
      Layer.of ClassDef.name ClassDef.binding (defs.map ClassDef.head) := by
    intro defs
    simp [Layer.of, List.filterMap_map, Function.comp_def, ClassDef.head]
  rw [hmap, h, ← hmap]

/-- The names in a method do not depend on the bodies of methods. -/
theorem MethodDef.names_congr (hmethod : method'.head = method.head) (hcls : cls'.head = cls.head)
    (h : classes'.map ClassDef.head = classes.map ClassDef.head) :
    method'.names cls' classes' = method.names cls classes := by
  have hparams : method'.head.params = method.head.params := congrArg MethodDef.params hmethod
  have hparams : method'.params = method.params := hparams
  unfold names
  rw [Layer.of_classes_congr h, ClassDef.members_congr hcls, hparams]

/-- Whether a class is declared is read off its head. -/
theorem ClassDef.DeclaredAt.head {b : Bindings} {c : SymbolId} :
    cls.head.DeclaredAt b c ↔ cls.DeclaredAt b c := by
  constructor
  · rintro ⟨hbound, hname, hinfo, horder, hfields, hmethods⟩
    rw [members_head] at hinfo
    refine ⟨hbound, hname, hinfo, horder, hfields, fun method hmem => ?_⟩
    obtain ⟨m, params, hmethod⟩ := hmethods method.head (List.mem_map_of_mem hmem)
    exact ⟨m, params, hmethod.bound, hmethod.kind, hmethod.type, hmethod.params⟩
  · rintro ⟨hbound, hname, hinfo, horder, hfields, hmethods⟩
    rw [← members_head] at hinfo
    refine ⟨hbound, hname, hinfo, horder, hfields, fun method hmem => ?_⟩
    obtain ⟨found, hfound, rfl⟩ := List.mem_map.1 hmem
    obtain ⟨m, params, hmethod⟩ := hmethods found hfound
    exact ⟨m, params, hmethod.bound, hmethod.kind, hmethod.type, hmethod.params⟩

/-- Whether classes are declared does not depend on the bodies of their methods. -/
theorem Bindings.Describes.congr {b : Bindings} (hdescribes : b.Describes classes)
    (h : classes'.map ClassDef.head = classes.map ClassDef.head) : b.Describes classes' := by
  have hmem : ∀ {l l' : List ClassDef}, l'.map ClassDef.head = l.map ClassDef.head → ∀ cls ∈ l,
      ∃ cls' ∈ l', cls'.head = cls.head := by
    intro l l' heads cls hcls
    have hin : cls.head ∈ l'.map ClassDef.head := heads ▸ List.mem_map_of_mem hcls
    exact List.mem_map.1 hin
  refine ⟨hdescribes.builtins, ?_, fun m hm => ?_, ?_, fun name c => ?_, fun cls' hcls' => ?_⟩
  · have hbindings : classes'.map (·.binding) = classes.map (·.binding) := by
      simpa [Function.comp_def, ClassDef.head] using congrArg (List.map ClassDef.binding) h
    rw [hbindings]
    exact hdescribes.order
  · obtain ⟨cls, hcls, method, hmethod, hbound⟩ := hdescribes.methods m hm
    obtain ⟨cls', hcls', hhead⟩ := hmem h cls hcls
    have hmethods : cls'.methods.map MethodDef.head = cls.methods.map MethodDef.head :=
      congrArg ClassDef.methods hhead
    obtain ⟨method', hmethod', hhead'⟩ :=
      List.mem_map.1 (hmethods ▸ List.mem_map_of_mem (f := MethodDef.head) hmethod)
    exact ⟨cls', hcls', method', hmethod', (congrArg MethodDef.binding hhead').trans hbound⟩
  · have hnames : classes'.map (·.name) = classes.map (·.name) := by
      simpa [Function.comp_def, ClassDef.head] using congrArg (List.map ClassDef.name) h
    rw [hnames]
    exact hdescribes.nodup
  · rw [hdescribes.names]
    constructor
    · rintro ⟨cls, hcls, hname, hbound⟩
      obtain ⟨cls', hcls', hhead⟩ := hmem h cls hcls
      exact ⟨cls', hcls', (congrArg ClassDef.name hhead).trans hname,
        (congrArg ClassDef.binding hhead).trans hbound⟩
    · rintro ⟨cls, hcls, hname, hbound⟩
      obtain ⟨cls', hcls', hhead⟩ := hmem h.symm cls hcls
      exact ⟨cls', hcls', (congrArg ClassDef.name hhead).trans hname,
        (congrArg ClassDef.binding hhead).trans hbound⟩
  · obtain ⟨cls, hcls, hhead⟩ := hmem h.symm cls' hcls'
    obtain ⟨c, hc⟩ := hdescribes.declared cls hcls
    exact ⟨c, ClassDef.DeclaredAt.head.1 (hhead ▸ ClassDef.DeclaredAt.head.2 hc)⟩

end Heads

section Bodies

/-- The parameters of a method that are in force so far. -/
structure ParamDef.Entered (start : Bindings) (params : List ParamDef) (b : Bindings) : Prop where
  represents : b.scope.Represents [.of ParamDef.name ParamDef.binding params]
  table : b.table = start.table
  builtins : b.builtins = start.builtins
  classes : b.scope.classes = start.scope.classes
  members : b.scope.members = start.scope.members

/-- What a layer hides and finds does not depend on the order of its variables. -/
theorem Scope.Represents.swap {scope : Scope} {layer layer' : Layer} (h : scope.Represents [layer])
    (hsame : ∀ name, layer'.lookup name = layer.lookup name) : scope.Represents [layer'] where
  depth := h.depth
  locals := by
    intro name
    rw [h.locals]
    unfold Layers.visible?
    rw [hsame]
  shadowed := by
    rw [h.shadowed]
    simp [Layers.hidden, Layers.hiddenBy, Layers.visible?]

/-- Entering one more parameter puts it into force next to those entered so far. -/
theorem ParamDef.enter_yields (start : Bindings) (done : List ParamDef) (param : ParamDef) :
    param.enter.Yields (Entered start done)
      (fun param' b => param' = param ∧ Entered start (done ++ [param']) b) fun _ => True := by
  refine Yields.get_bind fun b hb => ?_
  have hof : Layer.of ParamDef.name ParamDef.binding (done ++ [param]) =
      .of ParamDef.name ParamDef.binding done ++ (param.binding.map (param.name, ·)).toList := by
    unfold Layer.of
    rw [List.filterMap_append]
    cases hbound : param.binding <;> simp [hbound]
  cases hbound : param.binding with
  | none =>
    refine yields_pure ?_
    rintro _ rfl
    refine ⟨rfl, ?_, hb.table, hb.builtins, hb.classes, hb.members⟩
    rw [hof, hbound]
    simpa using hb.represents
  | some x =>
    refine (yields_lift (Check.yields_orAbort trivial)).bind fun scope' => Yields.intro fun hdeclare => ?_
    obtain ⟨-, hclasses, hmembers, -⟩ := Scope.declareLocal_eq hdeclare
    refine (yields_set (Q := fun _ => (· = _)) rfl).bind fun _ => yields_pure ?_
    rintro _ rfl
    refine ⟨rfl, ?_, hb.table, hb.builtins, hclasses.trans hb.classes, hmembers.trans hb.members⟩
    have hdeclared := hb.represents.declareLocal param.name x param.span
    split at hdeclared
    next =>
      rw [hdeclare] at hdeclared
      cases hdeclared
    next hnew =>
    obtain ⟨found, hfound, hdeclared⟩ := hdeclared
    obtain rfl := Except.ok.inj (hdeclare.symm.trans hfound)
    refine hdeclared.swap fun name => ?_
    rw [hof, hbound, List.lookup_append, List.lookup_cons]
    by_cases heq : name = param.name
    · subst heq
      simp [hnew]
    · simp [List.lookup_cons, beq_false_of_ne heq]

/-- Entering the parameters of a method puts all of them into force. -/
theorem ParamDef.enterAll_yields (start : Bindings) (params : List ParamDef) :
    (each ParamDef.enter params).Yields (Entered start [])
      (fun params' b => params' = params ∧ Entered start params b) fun _ => True := by
  have hwalk := yields_each
    (fun done rest b => done ++ rest = params ∧ Entered start done b)
    (fun done param rest => Yields.intro fun hparams =>
      (ParamDef.enter_yields start done param).weaken (fun _ => id)
        (fun param' b h => by
          obtain ⟨rfl, h⟩ := h
          exact ⟨by simpa using hparams, h⟩) fun _ => id) params []
  refine hwalk.weaken (fun b hb => ⟨rfl, hb⟩) (fun params' b h => ?_) fun _ => id
  obtain ⟨hparams, hentered⟩ := h
  obtain rfl : params' = params := by simpa using hparams
  exact ⟨rfl, hentered⟩

variable {classes : List ClassDef} {cls : ClassDef}

theorem MethodDef.DeclaredAt.param {b : Bindings} {c m : SymbolId} {method : MethodDef}
    {params : List SymbolId} (h : method.DeclaredAt b c m params) {param : ParamDef}
    (hmem : param ∈ method.params) : ∃ p, param.DeclaredAt b p := by
  obtain ⟨p, -, hp⟩ := exists_of_mem_results h.params.flip hmem
  exact ⟨p, hp⟩

/-- The members of a declared class are in the table. -/
theorem ClassDef.DeclaredAt.lt_size {b : Bindings} {c : SymbolId} (h : cls.DeclaredAt b c)
    {d : MemberDef} (hmem : d ∈ cls.members) {x : SymbolId} (hbound : d.binding = some x) :
    x.index < b.table.size := by
  obtain hmem | hmem := List.mem_append.1 hmem
  · obtain ⟨field, hfield, rfl⟩ := List.mem_map.1 hmem
    obtain ⟨y, hy⟩ := h.fields field hfield
    obtain rfl := Option.some.inj (hbound.symm.trans hy.bound)
    exact SymbolTable.lt_size_of_kind? hy.kind
  · obtain ⟨method, hmethod, rfl⟩ := List.mem_map.1 hmem
    obtain ⟨y, params, hy⟩ := h.methods method hmethod
    obtain rfl := Option.some.inj (hbound.symm.trans hy.bound)
    exact SymbolTable.lt_size_of_kind? hy.kind

/-- All declarations that a name can denote at the start of a method are in the table. -/
theorem Bindings.Describes.lt_size {b : Bindings} (h : b.Describes classes) (hcls : cls ∈ classes)
    {method : MethodDef} (hmethod : method ∈ cls.methods) {x : SymbolId}
    (hmem : x ∈ (method.names cls classes).symbols) : x.index < b.table.size := by
  obtain ⟨c, hc⟩ := h.declared cls hcls
  obtain ⟨m, params, hm⟩ := hc.methods method hmethod
  unfold Names.symbols MethodDef.names at hmem
  simp only [List.flatten_cons, List.flatten_nil, List.append_nil, List.nil_append,
    List.map_append, List.mem_append, List.mem_map, Prod.exists, exists_eq_right] at hmem
  obtain (⟨name, hmem⟩ | ⟨name, hmem⟩) | ⟨name, hmem⟩ := hmem
  · obtain ⟨param, hparam, -, hbound⟩ := Layer.mem_of.1 hmem
    obtain ⟨p, hp⟩ := hm.param hparam
    obtain rfl := Option.some.inj (hbound.symm.trans hp.bound)
    exact SymbolTable.lt_size_of_kind? hp.kind
  · obtain ⟨d, hd, -, hbound⟩ := Layer.mem_of.1 hmem
    exact hc.lt_size hd hbound
  · obtain ⟨other, hother, -, hbound⟩ := Layer.mem_of.1 hmem
    obtain ⟨c', hc'⟩ := h.declared other hother
    obtain ⟨info, hkind, -⟩ := hc'.info
    obtain rfl := Option.some.inj (hbound.symm.trans hc'.bound)
    exact SymbolTable.lt_size_of_kind? hkind

/-- Where the body of a method begins, the names are those of its parameters, its class and
    all classes. -/
theorem ParamDef.Entered.inForce {start b : Bindings} {method : MethodDef}
    (h : Entered start method.params b) (hdescribes : start.Describes classes)
    (hcls : cls ∈ classes) (hmethod : method ∈ cls.methods)
    (hmembers : ∀ name, start.scope.members.get? name =
      (Layer.of MemberDef.name MemberDef.binding cls.members).lookup name) :
    (method.names cls classes).InForce b where
  nonempty := List.cons_ne_nil _ _
  represents := h.represents
  members := by
    intro name
    rw [h.members]
    exact hmembers name
  classes := by
    rw [h.classes]
    exact Layer.lookup_eq hdescribes.nodup hdescribes.names
  below := by
    intro x hmem
    rw [h.table]
    exact hdescribes.lt_size hcls hmethod hmem

/-- Analysis of a method binds all names in its body, and changes nothing else in it. -/
theorem MethodDef.analyze_scoped {start : Bindings} {c : SymbolId} {method : MethodDef}
    (hdescribes : start.Describes classes) (hcls : cls ∈ classes) (hmethod : method ∈ cls.methods)
    (hmembers : ∀ name, start.scope.members.get? name =
      (Layer.of MemberDef.name MemberDef.binding cls.members).lookup name) :
    (method.analyze c).Yields start.AddsLocals
      (fun method' b => (method'.head = method.head ∧
        Stmt.AllScoped (method.names cls classes) method'.body) ∧ start.AddsLocals b)
      fun _ => True := by
  unfold analyze
  obtain ⟨x, hx⟩ := hdescribes.declared cls hcls
  obtain ⟨m, ids, hm⟩ := hx.methods method hmethod
  rw [hm.bound]
  dsimp only
  refine Yields.of_eq fun mid hmid => ?_
  have hdescribes' : mid.Describes classes :=
    hmid.table.describes hmid.builtins hmid.classes hdescribes
  have henter : Yields (· = mid) (onScope Scope.enterMethod : Walk MethodDef Unit)
      (fun _ => ParamDef.Entered mid []) fun _ => True := by
    refine yields_onScope ?_
    rintro _ rfl
    exact ⟨Scope.represents_enterMethod _, rfl, rfl, rfl, rfl⟩
  refine henter.bind fun _ => ?_
  refine (Yields.within (ParamDef.enterAll_yields mid method.params)).bind fun params =>
    Yields.intro fun hparams => ?_
  subst hparams
  refine Yields.get_bind fun b hb => ?_
  have hforce := hb.inForce hdescribes' hcls hmethod (by rwa [hmid.members])
  have hhere : Stmt.Here start (method.names cls classes) b := by
    refine ⟨hforce, hmid.trans ⟨?_, hb.builtins, hb.classes, hb.members⟩⟩
    rw [hb.table]
    exact .refl rfl false _
  have hbody := (Stmt.analyzeAll_scoped ⟨c, method.modifiers.isStatic, b.table.typeOf m⟩
    (method.names cls classes) method.body).from_state hhere
  refine (Yields.within hbody).bind fun body => Yields.intro fun hscoped => ?_
  refine yields_report.bind fun _ => ?_
  refine yields_pure fun b hb => ?_
  exact ⟨⟨by simp [head, hm.bound], hscoped⟩, hb.2⟩

/-- All classes are declared as they are written, in a well-formed table. -/
structure Bindings.Declared (b : Bindings) (classes : List ClassDef) : Prop where
  describes : b.Describes classes
  wellFormed : b.table.WellFormed false

/-- Analysis of a class binds all names in its methods, and changes nothing but their bodies. -/
theorem ClassDef.analyze_scoped (hcls : cls ∈ classes) :
    cls.analyze.Yields (·.Declared classes)
      (fun cls' b => (cls'.head = cls.head ∧ ∀ method ∈ cls'.methods,
        Stmt.AllScoped (method.names cls' classes) method.body) ∧ b.Declared classes)
      fun _ => True := by
  unfold analyze
  refine Yields.of_eq fun _ ⟨hdescribes, hwf⟩ => ?_
  obtain ⟨c, hc⟩ := hdescribes.declared cls hcls
  rw [hc.bound]
  refine Yields.get_bind fun start hstart => ?_
  subst hstart
  obtain ⟨info, hkind, hinfo⟩ := hc.info
  have hfound : (start.table.classInfo? c).getD {} = info := by
    simp [SymbolTable.classInfo?_eq_some_iff.2 hkind]
  rw [hfound]
  generalize hentered : { start with scope := start.scope.enterClass info.members } = entered
  have hsame : start.table.AddsLocals false entered.table := by
    subst hentered
    exact .refl rfl false _
  have hdescribes' : entered.Describes classes := by
    subst hentered
    exact hsame.describes rfl rfl hdescribes
  have hwf' : entered.table.WellFormed false := hwf.addsVariables hsame
  refine (yields_onScope (Q := fun _ => (· = entered)) (by rintro _ rfl; exact hentered)).bind
    fun _ => ?_
  have hmethods := yields_forall entered.AddsLocals cls.methods fun method hmethod =>
    MethodDef.analyze_scoped (c := c) hdescribes' hcls hmethod fun name => by
      subst hentered
      exact Layer.lookup_eq hinfo.nodup hinfo.members name
  refine (Yields.within (hmethods.from_state (.refl entered))).bind fun methods => Yields.intro fun hscoped => ?_
  have hhead : ClassDef.head { cls with methods } = cls.head := by
    have hheads := map_results (f := MethodDef.head) (fun _ _ h => h.1) hscoped
    simp [head, hheads]
  rw [hc.bound] at hhead
  refine yields_pure fun b hb => ⟨⟨hhead, fun method hmem => ?_⟩,
    hb.table.describes hb.builtins hb.classes hdescribes', hwf'.addsVariables hb.table⟩
  obtain ⟨method', -, hsame, hbody⟩ := exists_of_mem_results hscoped hmem
  rw [MethodDef.names_congr hsame hhead rfl]
  exact hbody

/-- Analysis that is not cut short leaves all classes declared and all names in bodies bound. -/
theorem ClassDef.analyzeAll_scoped (classes : List ClassDef) :
    (analyzeAll classes).Yields (· = .initial)
      (fun classes' b => b.Declared (Builtins.classDefs ++ classes') ∧
        ∀ cls ∈ classes', ∀ method ∈ cls.methods,
          Stmt.AllScoped (method.names cls (Builtins.classDefs ++ classes')) method.body)
      fun _ => True := by
  unfold analyzeAll
  rw [← bind_assoc]
  refine ((declareAll_yields classes).and (declareAll_wellFormed classes)).bind fun declared => ?_
  refine Yields.weaken (yields_forall (·.Declared (Builtins.classDefs ++ declared)) declared
    fun cls hcls => ClassDef.analyze_scoped (List.mem_append_right _ hcls))
      (fun _ h => ⟨h.1, h.2⟩) (fun classes' b h => ?_) fun _ => id
  obtain ⟨hscoped, hdescribes, hwf⟩ := h
  have hheads : (Builtins.classDefs ++ classes').map ClassDef.head =
      (Builtins.classDefs ++ declared).map ClassDef.head := by
    rw [List.map_append, List.map_append, map_results (f := ClassDef.head) (fun _ _ h => h.1) hscoped]
  refine ⟨⟨hdescribes.congr hheads, hwf⟩, fun cls hcls method hmethod => ?_⟩
  obtain ⟨cls', -, -, hbodies⟩ := exists_of_mem_results hscoped hcls
  rw [MethodDef.names_congr rfl rfl hheads]
  exact hbodies method hmethod

end Bodies

namespace Package

/-- If analysis is not cut short, all classes are declared as they are written. -/
theorem analyze_declared {package : Package} {analysis : Analysis}
    (hanalysis : package.analyze.analysis? = some analysis) :
    ∃ b : Bindings, b.table = analysis.table ∧ b.builtins = analysis.builtins ∧
      b.Declared (Builtins.classDefs ++ package.analyze.package.classes) := by
  unfold analyze at hanalysis ⊢
  cases hrun : (ClassDef.analyzeAll package.classes).run .initial |>.run [] with
  | error classes log => simp [hrun] at hanalysis
  | ok result log =>
    simp only [hrun] at hanalysis
    obtain rfl := Option.some.inj hanalysis
    have hscoped := (ClassDef.analyzeAll_scoped package.classes .initial rfl).ok hrun
    exact ⟨_, rfl, rfl, hscoped.1⟩

theorem analyze_describes {package : Package} {analysis : Analysis}
    (hanalysis : package.analyze.analysis? = some analysis) :
    ∃ b : Bindings, b.table = analysis.table ∧ b.builtins = analysis.builtins ∧
      b.Describes (Builtins.classDefs ++ package.analyze.package.classes) := by
  obtain ⟨b, htable, hbuiltins, hdeclared⟩ := analyze_declared hanalysis
  exact ⟨b, htable, hbuiltins, hdeclared.describes⟩

/-- Static scoping: if analysis is not cut short, every bare name in a method is bound to the
    innermost local variable of that name that is declared before it in the blocks around it, or
    else to the parameter, the member of the class, or the class of that name. This holds whatever
    mistakes in types are reported. -/
theorem names_bound_lexically (package : Package) {analysis : Analysis}
    (hanalysis : package.analyze.analysis? = some analysis) :
    package.analyze.package.erase = package.erase ∧ package.analyze.package.Scoped := by
  refine ⟨package.erase_analyze, ?_⟩
  unfold analyze at hanalysis ⊢
  cases hrun : (ClassDef.analyzeAll package.classes).run .initial |>.run [] with
  | error classes log => simp [hrun] at hanalysis
  | ok result log =>
    have hscoped := (ClassDef.analyzeAll_scoped package.classes .initial rfl).ok hrun
    exact hscoped.2

/-- A program with a mistake in a type: in a block, `x` hides the field of that name and is no
    condition, and after the block `x` is the field again. -/
def shadowing : Package where
  classes := [{
    name := "Main"
    fields := [{ modifiers := { isStatic := true }, type := .int {}, name := "x" }]
    methods := [.main [
      .block {} [
        .varDecl {} { type := .int {}, name := "x" } (.int {} 1),
        .while {} (.ref {} (.ofPath "x")) (.println (.ref {} (.ofPath "x")))],
      .println (.ref {} (.ofPath "x"))]] }]

theorem shadowing_scoped : shadowing.analyze.log ≠ [] ∧
    ∃ analysis, shadowing.analyze.analysis? = some analysis ∧
      shadowing.analyze.package.erase = shadowing.erase ∧ shadowing.analyze.package.Scoped := by
  have hlog : shadowing.analyze.log ≠ [] := by decide +kernel
  have hrun : shadowing.analyze.analysis?.isSome = true := by decide +kernel
  obtain ⟨analysis, hanalysis⟩ := Option.isSome_iff_exists.1 hrun
  exact ⟨hlog, analysis, hanalysis, names_bound_lexically shadowing hanalysis⟩

end Package

end SmallJava
