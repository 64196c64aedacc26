import SmallJava.Proofs.Acceptance.Program
import SmallJava.Proofs.Reporting.Known
import SmallJava.Syntax.Build

/-! What analysis reports about a program, and what it records in it. -/

namespace SmallJava

open Walk

/-- The method and its parameters are bound. -/
structure MethodDef.Bound (method : MethodDef) : Prop where
  own : method.binding.isSome
  params : ∀ param ∈ method.params, param.binding.isSome

/-- The class and its members are bound. -/
structure ClassDef.Bound (cls : ClassDef) : Prop where
  own : cls.binding.isSome
  fields : ∀ field ∈ cls.fields, field.binding.isSome
  methods : ∀ method ∈ cls.methods, method.Bound

/-- The method is bound, and so are all names in it. -/
structure MethodDef.Recorded (method : MethodDef) : Prop extends method.Bound where
  body : ∀ stmt ∈ Stmt.allStmts method.body, stmt.Recorded

/-- The class is bound, and so are all names in it. -/
structure ClassDef.Recorded (cls : ClassDef) : Prop extends cls.Bound where
  bodies : ∀ method ∈ cls.methods, method.Recorded

def MethodDef.Supported (method : MethodDef) : Prop :=
  ∀ stmt ∈ Stmt.allStmts method.body, stmt.Supported

section Walks

variable {ν : Type}

/-- A declaration with a type reports nothing, unless it cuts the analysis short. -/
theorem Walk.declareTyped_reports (node : ν) (type : TypeExpr)
    {declare : SymbolTable → Ty → Except Diagnostic SymbolTable}
    (hdeclare : ∀ table ty, Except.CutsShort (declare table ty)) :
    (declareTyped node type declare).Reports (fun _ => True) fun _ => True := by
  refine reports_get.after fun _ => ?_
  refine (reports_orAbort (type.cutsShort_resolve _ _)).after fun _ => ?_
  refine (reports_orAbort (hdeclare _ _)).after fun _ => ?_
  refine reports_set.after fun _ => ?_
  exact reports_pure trivial trivial

theorem FieldDef.declare_reports (cls : SymbolId) (className : String) (field : FieldDef) :
    (field.declare cls className).Reports (fun field' => field'.binding.isSome) fun _ => True :=
  (declareTyped_reports field field.type (SymbolTable.cutsShort_declareMember _ _ _ _ _)).after
    fun _ => reports_pure rfl trivial

theorem ParamDef.declare_reports (param : ParamDef) :
    param.declare.Reports (fun param' => param'.binding.isSome) fun _ => True :=
  (declareTyped_reports param param.type fun _ _ => Except.cutsShort_ok).after fun _ =>
    reports_pure rfl trivial

/-- Declaring a method binds it and its parameters. -/
theorem MethodDef.declare_reports (cls : SymbolId) (className : String) (method : MethodDef) :
    (method.declare cls className).Reports Bound fun _ => True := by
  refine (declareTyped_reports method method.returnType
    (SymbolTable.cutsShort_declareMember _ _ _ _ _)).after fun symbol => ?_
  have hdeclare := reports_each method.params fun param _ => param.declare_reports
  refine (hdeclare.within _).bind fun params hparams => ?_
  refine reports_modify.after fun _ => ?_
  exact reports_pure ⟨rfl, hparams⟩ fun _ => trivial

/-- Declaring a class binds it. -/
theorem ClassDef.declare_reports (cls : ClassDef) :
    cls.declare.Reports (fun cls' => cls'.binding.isSome) fun _ => True := by
  refine reports_get.after fun b => ?_
  dsimp only
  split
  next => exact reports_lift (Check.reports_abort ⟨rfl, nofun⟩)
  next => exact reports_set.after fun _ => reports_pure rfl trivial

/-- Declaring the members of a class binds all of them. -/
theorem ClassDef.declareMembers_reports (cls : ClassDef) (hbound : cls.binding.isSome) :
    cls.declareMembers.Reports Bound fun _ => True := by
  obtain ⟨symbol, hsymbol⟩ := Option.isSome_iff_exists.1 hbound
  unfold declareMembers
  rw [hsymbol]
  refine ((reports_each cls.fields fun field _ => field.declare_reports symbol cls.name).within
    _).bind fun fields hfields => ?_
  refine ((reports_each cls.methods fun method _ => method.declare_reports symbol cls.name).within
    _).bind fun methods hmethods => ?_
  exact reports_pure ⟨rfl, hfields, hmethods⟩ fun _ _ => trivial

theorem ParamDef.enter_reports (param : ParamDef) :
    param.enter.Reports (fun param' => param' = param) fun _ => True := by
  refine reports_get.after fun b => ?_
  split
  next => exact reports_pure rfl trivial
  next =>
    refine (reports_orAbort (b.scope.cutsShort_declareLocal _ _ _)).after fun _ => ?_
    refine reports_set.after fun _ => ?_
    exact reports_pure rfl trivial

/-- A bound method is recorded with its body. -/
theorem MethodDef.analyze_reports (cls : SymbolId) (method : MethodDef) (hbound : method.Bound) :
    (method.analyze cls).Reports Recorded Supported := by
  obtain ⟨symbol, hsymbol⟩ := Option.isSome_iff_exists.1 hbound.own
  have henter : (each ParamDef.enter method.params).Reports
      (fun params => ∀ param ∈ params, param.binding.isSome) fun _ => True :=
    (reports_each method.params fun param hmem => param.enter_reports.weaken
      (fun param' heq => heq ▸ hbound.params param hmem) fun _ _ => id).weaken (fun _ => id)
        fun _ _ _ => trivial
  unfold analyze
  rw [hsymbol]
  refine reports_onScope.after fun _ => ?_
  refine (henter.within _).bind fun params hparams => ?_
  refine Reports.weaken (S := Supported) ?_ (fun _ => id) fun _ _ hsupported _ => hsupported
  refine reports_get.after fun b => ?_
  refine ((Stmt.analyzeAll_reports _ method.body).within _).bind fun body hbody => ?_
  refine (reports_report Typing.allTyping_methodEnd).bind fun _ _ => ?_
  exact reports_pure ⟨⟨rfl, hparams⟩, hbody⟩ fun _ => id

/-- A bound class is recorded with the bodies of its methods. -/
theorem ClassDef.analyze_reports (cls : ClassDef) (hbound : cls.Bound) :
    cls.analyze.Reports Recorded fun cls' => ∀ method ∈ cls'.methods, method.Supported := by
  obtain ⟨symbol, hsymbol⟩ := Option.isSome_iff_exists.1 hbound.own
  unfold analyze
  rw [hsymbol]
  refine reports_get.after fun b => ?_
  refine reports_onScope.after fun _ => ?_
  refine ((reports_each cls.methods fun method hmem =>
    method.analyze_reports symbol (hbound.methods method hmem)).within _).bind
      fun methods hmethods => reports_pure ?_ id
  exact ⟨⟨rfl, hbound.fields, fun method hmem => (hmethods method hmem).toBound⟩, hmethods⟩

/-- Analysis of classes reports mistakes in types up to a name that it cannot bind. If it is not
cut short, all names are bound. -/
theorem ClassDef.analyzeAll_reports (classes : List ClassDef) :
    (analyzeAll classes).Reports (fun classes' => ∀ cls ∈ classes', cls.Recorded)
      fun classes' => ∀ cls ∈ classes', ∀ method ∈ cls.methods, method.Supported := by
  refine (reports_each classes fun cls _ => cls.declare_reports).bind fun named hnamed => ?_
  refine Reports.weaken (S := fun classes' => ∀ cls ∈ classes', ∀ method ∈ cls.methods,
    method.Supported) ?_ (fun _ => id) fun _ _ hsupported _ => hsupported
  refine (reports_each named fun cls hmem => cls.declareMembers_reports (hnamed cls hmem)).bind
    fun declared hdeclared => ?_
  exact (reports_each declared fun cls hmem => cls.analyze_reports (hdeclared cls hmem)).weaken
    (fun _ => id) fun _ _ hsupported _ => hsupported

end Walks

namespace Package

/-- The analysis of the program is not cut short. It leaves the classes, the names and declarations
`b`, and what it found, which are mistakes in types. -/
structure Completes (package : Package) (classes : List ClassDef) (b : Bindings)
    (found : List Diagnostic) : Prop where
  run : ((ClassDef.analyzeAll package.classes).run .initial).run [] = .ok (classes, b) found
  typing : Diagnostic.AllTyping found
  recorded : ∀ cls ∈ classes, cls.Recorded
  supported : found = [] → ∀ cls ∈ classes, ∀ method ∈ cls.methods, method.Supported

/-- Analysis is cut short by a name, or it completes. -/
theorem analyze_cases (package : Package) :
    (∃ found fatal, package.analyze.log = found ++ [fatal] ∧ Diagnostic.AllTyping found ∧
        fatal.CutsShort ∧ package.analyze.analysis? = none) ∨
      ∃ classes b found, package.Completes classes b found := by
  cases hrun : (ClassDef.analyzeAll package.classes).run .initial |>.run [] with
  | error classes log =>
    obtain ⟨found, fatal, hlog, htyping, hfatal⟩ :=
      (ClassDef.analyzeAll_reports package.classes .initial).error hrun
    refine .inl ⟨found, fatal, ?_, htyping, hfatal, ?_⟩
    · simpa [analyze, hrun] using hlog
    · simp [analyze, hrun]
  | ok result log =>
    obtain ⟨found, hlog, htyping, hrecorded, hsupported⟩ :=
      (ClassDef.analyzeAll_reports package.classes .initial).ok hrun
    obtain rfl : log = found := hlog
    exact .inr ⟨_, _, _, hrun, htyping, hrecorded, hsupported⟩

/-- Analysis leaves the entry point where it is. -/
theorem findIdx?_analyze (package : Package) :
    package.analyze.package.methods.findIdx? (·.hasEntrySignature) =
      package.methods.findIdx? (·.hasEntrySignature) := by
  have hmethods : package.analyze.package.methods.map MethodDef.erase =
      package.methods.map MethodDef.erase := by
    have hclasses := congrArg (fun package => package.classes.flatMap (·.methods))
      package.erase_analyze
    simpa [erase, ClassDef.erase, List.flatMap_map, List.map_flatMap] using hclasses
  have herase : (MethodDef.hasEntrySignature ∘ MethodDef.erase) = MethodDef.hasEntrySignature :=
    funext MethodDef.hasEntrySignature_erase
  have hidx := congrArg (List.findIdx? MethodDef.hasEntrySignature) hmethods
  rwa [List.findIdx?_map, List.findIdx?_map, herase] at hidx

namespace Completes

variable {package : Package} {classes : List ClassDef} {b : Bindings} {found : List Diagnostic}

theorem tree (h : package.Completes classes b found) :
    package.analyze.package = { package with classes } := by
  simp [analyze, h.run]

theorem result (h : package.Completes classes b found) :
    package.analyze.analysis? =
      some ⟨b.table, b.builtins, package.analyze.package.entryMethod?.bind (·.binding)⟩ := by
  simp [analyze, h.run]

theorem log (h : package.Completes classes b found) : package.analyze.log =
    if (package.analyze.package.entryMethod?.bind (·.binding)).isSome then found
    else found ++ [.missingEntryPoint package.span] := by
  simp [analyze, h.run, Diagnostic.Log.report]

theorem method (h : package.Completes classes b found) {method : MethodDef}
    (hmem : method ∈ package.analyze.package.methods) : method.Recorded := by
  rw [h.tree] at hmem
  obtain ⟨cls, hcls, hmethod⟩ := List.mem_flatMap.1 hmem
  exact (h.recorded cls hcls).bodies method hmethod

/-- The entry point is what the first method with its signature is bound to. -/
theorem entry_eq (h : package.Completes classes b found) {i : Nat}
    (hidx : package.methods.findIdx? (·.hasEntrySignature) = some i) :
    ∃ entry, (package.analyze.package.methods[i]?).bind (·.binding) = some entry ∧
      package.analyze.package.entryMethod?.bind (·.binding) = some entry := by
  have hidx' := hidx
  rw [← findIdx?_analyze] at hidx'
  obtain ⟨hlt, -, -⟩ := List.findIdx?_eq_some_iff_getElem.1 hidx'
  have hget : package.analyze.package.methods[i]? = some package.analyze.package.methods[i] :=
    List.getElem?_eq_getElem hlt
  obtain ⟨entry, hentry⟩ := Option.isSome_iff_exists.1 (h.method (List.getElem_mem hlt)).own
  refine ⟨entry, by rw [hget, Option.bind_some, hentry], ?_⟩
  unfold entryMethod?
  rw [List.find?_eq_bind_findIdx?_getElem?, hidx', Option.bind_some, hget, Option.bind_some, hentry]

theorem entry_eq_none (hidx : package.methods.findIdx? (·.hasEntrySignature) = none) :
    package.analyze.package.entryMethod?.bind (·.binding) = none := by
  unfold entryMethod?
  rw [List.find?_eq_bind_findIdx?_getElem?, findIdx?_analyze, hidx]
  rfl

end Completes

/-- How the analysis of a program goes: it finds mistakes in types, and at the end it may miss a
name. -/
structure Reports (package : Package) (mistakes : List Diagnostic) (last : Option Diagnostic) :
    Prop where
  log : package.analyze.log = mistakes ++ last.toList
  typing : ∀ d ∈ mistakes, d.kind = .typing
  identification : ∀ d ∈ last, d.kind = .identification
  cutShort : package.analyze.analysis? = none ↔ ∃ d ∈ last, ∀ span, d ≠ .missingEntryPoint span
  noEntry : (∃ analysis, package.analyze.analysis? = some analysis ∧ analysis.entry = none) ↔
    ∃ span, last = some (.missingEntryPoint span)
  /-- The entry point is the first method with its signature. -/
  entry : last = none → ∃ analysis i entry, package.analyze.analysis? = some analysis ∧
    package.methods.findIdx? (·.hasEntrySignature) = some i ∧
      (package.analyze.package.methods[i]?).bind (·.binding) = some entry ∧
        analysis.entry = some entry

/-- If the analysis is cut short, the report that does so is the last one. -/
theorem reports_of_cutShort {package : Package} {found : List Diagnostic} {fatal : Diagnostic}
    (hlog : package.analyze.log = found ++ [fatal]) (htyping : Diagnostic.AllTyping found)
    (hfatal : fatal.CutsShort) (hanalysis : package.analyze.analysis? = none) :
    package.Reports found (some fatal) where
  log := hlog
  typing := htyping
  identification := by
    rintro _ ⟨⟩
    exact hfatal.kind
  cutShort := iff_of_true hanalysis ⟨fatal, rfl, hfatal.goesOn⟩
  noEntry := by
    refine iff_of_false ?_ ?_
    · rintro ⟨analysis, hsome, -⟩
      cases hanalysis.symm.trans hsome
    · rintro ⟨span, ⟨⟩⟩
      exact hfatal.goesOn span rfl
  entry := nofun

/-- If the analysis is not cut short, only a missing entry point may be reported after the mistakes
in types. -/
theorem Completes.reports {package : Package} {classes : List ClassDef} {b : Bindings}
    {found : List Diagnostic} (h : package.Completes classes b found) :
    ∃ last, package.Reports found last := by
  have hnone : ∀ {last : Option Diagnostic}, (∀ d ∈ last, d = .missingEntryPoint package.span) →
      (package.analyze.analysis? = none ↔ ∃ d ∈ last, ∀ span, d ≠ .missingEntryPoint span) := by
    refine fun hlast => iff_of_false ?_ ?_
    · rw [h.result]
      exact Option.some_ne_none _
    · rintro ⟨d, hmem, hne⟩
      exact hne _ (hlast d hmem)
  cases hidx : package.methods.findIdx? (·.hasEntrySignature) with
  | none =>
    have hentry := Completes.entry_eq_none hidx
    refine ⟨some (.missingEntryPoint package.span), ?_, h.typing, ?_, hnone ?_, ?_, nofun⟩
    · rw [h.log, hentry]
      rfl
    · rintro _ ⟨⟩
      rfl
    · rintro _ ⟨⟩
      rfl
    · exact iff_of_true ⟨_, h.result, hentry⟩ ⟨_, rfl⟩
  | some i =>
    obtain ⟨entry, hbound, hentry⟩ := h.entry_eq hidx
    refine ⟨none, ?_, h.typing, nofun, hnone nofun, ?_, fun _ => ?_⟩
    · rw [h.log, hentry]
      exact (List.append_nil found).symm
    · refine iff_of_false ?_ nofun
      rintro ⟨analysis, hsome, hmissing⟩
      obtain rfl := Option.some.inj (h.result.symm.trans hsome)
      cases hentry.symm.trans hmissing
    · exact ⟨_, i, entry, h.result, hidx, hbound, hentry⟩

theorem exists_reports (package : Package) : ∃ mistakes last, package.Reports mistakes last := by
  obtain ⟨found, fatal, hlog, htyping, hfatal, hanalysis⟩ | ⟨classes, b, found, h⟩ :=
    package.analyze_cases
  · exact ⟨found, some fatal, reports_of_cutShort hlog htyping hfatal hanalysis⟩
  · exact ⟨found, h.reports⟩

/-- Any report keeps a program from passing the check, and nothing else does. -/
theorem check_any (package : Package) :
    (package.analyze.log ≠ [] ∧ package.check .any = (.error .rejected, package.analyze.log)) ∨
      (package.analyze.log = [] ∧ ∃ checked, package.check .any = (.ok checked, [])) := by
  unfold check
  dsimp only
  cases hanalysis : package.analyze.analysis? with
  | none =>
    obtain ⟨mistakes, last, h⟩ := package.exists_reports
    obtain ⟨fatal, rfl, -⟩ := h.cutShort.1 hanalysis
    exact .inl ⟨by simp [h.log], rfl⟩
  | some analysis =>
    cases hlog : package.analyze.log with
    | nil => exact .inr ⟨rfl, _, rfl⟩
    | cons d rest => exact .inl ⟨List.cons_ne_nil d rest, rfl⟩

/-- Analysis reports mistakes in types, and then at most one name that cannot be bound, which is
the entry point or ends the analysis. A program is rejected only with a report, and compiled only
without. -/
theorem reports_in_order (package : Package) :
    (∃ mistakes last, package.Reports mistakes last) ∧
      ∀ options,
        (∀ log, package.compile options = .error (.rejected log) →
          log = package.analyze.log ∧ log ≠ []) ∧
        ∀ executable, package.compile options = .ok executable → package.analyze.log = [] := by
  refine ⟨package.exists_reports, fun options => ?_⟩
  unfold compile compileWith
  obtain ⟨hlog, hcheck⟩ | ⟨hlog, ⟨package', analysis⟩, hcheck⟩ := package.check_any
  · rw [hcheck]
    refine ⟨?_, nofun⟩
    rintro _ ⟨⟩
    exact ⟨rfl, hlog⟩
  · rw [hcheck]
    refine ⟨fun log hrejected => ?_, fun _ _ => hlog⟩
    dsimp only at hrejected
    cases hentry : analysis.entry with
    | none => simp [hentry] at hrejected
    | some entry =>
      cases hgenerate : (package'.generate options analysis entry).1 with
      | ok executable => simp [hentry, hgenerate] at hrejected
      | error fault => simp [hentry, hgenerate] at hrejected

end Package

end SmallJava
