import SmallJava.Proofs.Reporting.Program

/-! The annotations of a program whose analysis is not cut short. -/

namespace SmallJava

namespace Package

/-- All names of the program are bound, and all expressions in it typed. -/
def Recorded (package : Package) : Prop := ∀ cls ∈ package.classes, cls.Recorded

section Parts

variable {package : Package}

theorem mem_stmts {stmt : Stmt} :
    stmt ∈ package.stmts ↔ ∃ method ∈ package.methods, stmt ∈ Stmt.allStmts method.body :=
  List.mem_flatMap

theorem mem_exprs {e : Expr} :
    e ∈ package.exprs ↔ ∃ stmt ∈ package.stmts, ∃ expr ∈ stmt.own, e ∈ expr.exprs := by
  unfold exprs
  simp only [List.mem_flatMap]

namespace Recorded

theorem method (h : package.Recorded) {method : MethodDef} (hmem : method ∈ package.methods) :
    method.Recorded := by
  obtain ⟨cls, hcls, hmethod⟩ := List.mem_flatMap.1 hmem
  exact (h cls hcls).bodies method hmethod

theorem stmt (h : package.Recorded) {stmt : Stmt} (hmem : stmt ∈ package.stmts) :
    stmt.Recorded := by
  obtain ⟨method, hmethod, hstmt⟩ := mem_stmts.1 hmem
  exact (h.method hmethod).body stmt hstmt

theorem expr (h : package.Recorded) {e : Expr} (hmem : e ∈ package.exprs) : e.Recorded := by
  obtain ⟨stmt, hstmt, expr, hexpr, he⟩ := mem_exprs.1 hmem
  exact (h.stmt hstmt).exprs expr hexpr e he

/-- In a recorded program every path is typed, and its last name is bound. -/
theorem path (h : package.Recorded) {path : Reference} (hmem : path ∈ package.paths) :
    path.annot.ty.isSome ∧ ∀ name ∈ path.lastName?, name.binding.isSome := by
  obtain ⟨target, htarget, hpath⟩ := List.mem_flatMap.1 hmem
  have hrecorded : target.Recorded := by
    obtain hmem | hmem := List.mem_append.1 htarget
    · obtain ⟨e, he, htarget⟩ := List.mem_filterMap.1 hmem
      exact (h.expr he).path target htarget
    · obtain ⟨stmt, hstmt, htarget⟩ := List.mem_filterMap.1 hmem
      exact (h.stmt hstmt).path target htarget
  exact ⟨hrecorded.typed path hpath, hrecorded.bound path hpath⟩

theorem name (h : package.Recorded) {name : Ident} (hmem : name ∈ package.names) :
    name.binding.isSome := by
  obtain hmem | hmem := List.mem_append.1 hmem
  · obtain ⟨path, hpath, hname⟩ := List.mem_filterMap.1 hmem
    exact (h.path hpath).2 name hname
  · obtain ⟨e, he, hname⟩ := List.mem_filterMap.1 hmem
    exact (h.expr he).cls name hname

/-- In a recorded program every declaration is bound. -/
theorem declaration (h : package.Recorded) {binding : Option SymbolId}
    (hmem : binding ∈ package.declarations) : binding.isSome := by
  unfold declarations at hmem
  simp only [List.mem_append, List.mem_map, List.mem_flatMap, List.mem_cons,
    List.mem_filterMap, Option.map_eq_some_iff] at hmem
  obtain ((⟨cls, hcls, rfl⟩ | ⟨cls, hcls, field, hfield, rfl⟩) |
    ⟨method, ⟨cls, hcls, hmethod⟩, rfl | ⟨param, hparam, rfl⟩⟩) | ⟨stmt, hstmt, var, hvar, rfl⟩ := hmem
  · exact (h cls hcls).own
  · exact (h cls hcls).fields field hfield
  · exact ((h cls hcls).methods method hmethod).own
  · exact ((h cls hcls).methods method hmethod).params param hparam
  · exact (h.stmt hstmt).var var hvar

end Recorded

end Parts

namespace Completes

variable {package : Package} {classes : List ClassDef} {b : Bindings} {found : List Diagnostic}

theorem recorded_tree (h : package.Completes classes b found) :
    package.analyze.package.Recorded := by
  rw [h.tree]
  exact h.recorded

/-- If no mistake in a type is found, then no mistake at all. -/
theorem found_eq_nil (h : package.Completes classes b found)
    (hnone : ∀ d ∈ package.analyze.log, d.kind ≠ .typing) : found = [] := by
  refine List.eq_nil_iff_forall_not_mem.2 fun d hmem => hnone d ?_ (h.typing d hmem)
  rw [h.log]
  split
  · exact hmem
  · exact List.mem_append_left _ hmem

/-- Without a mistake, no expression is one or has a type that cannot be used. -/
theorem faultless (h : package.Completes classes b []) {e : Expr}
    (hmem : e ∈ package.analyze.package.exprs) : e.Known ∧ e.Supported := by
  obtain ⟨stmt, hstmt, expr, hexpr, he⟩ := mem_exprs.1 hmem
  obtain ⟨method, hmethod, hstmt⟩ := mem_stmts.1 hstmt
  rw [h.tree] at hmethod
  obtain ⟨cls, hcls, hmethod⟩ := List.mem_flatMap.1 hmethod
  obtain ⟨hwf, -, -, htyped⟩ :=
    ((ClassDef.analyzeAll_ensures false false package.classes .initial).ok h.run).2 rfl
      (Bindings.initial_wellFormed false).1 (package.disciplined nofun nofun)
  obtain ⟨-, m, info, hmethod'⟩ := htyped cls hcls method hmethod
  have hwritten : b.table.signature.Written := hwf.table.written
  exact ⟨hmethod'.body.known hwritten stmt hstmt expr hexpr e he,
    h.supported rfl cls hcls method hmethod stmt hstmt expr hexpr e he⟩

end Completes

end Package

/-- Every expression and every path is typed, and every declaration and every name is bound. An
expression of the error type comes with a report of a mistake in a type. If nothing is reported,
no expression has the error type or the unsupported type. -/
structure Analyzed.Annotated (analyzed : Analyzed) : Prop where
  exprs : ∀ e ∈ analyzed.package.exprs, e.annot.ty.isSome
  paths : ∀ path ∈ analyzed.package.paths, path.annot.ty.isSome
  declarations : ∀ binding ∈ analyzed.package.declarations, binding.isSome
  names : ∀ name ∈ analyzed.package.names, name.binding.isSome
  error : (∃ e ∈ analyzed.package.exprs, e.annot.ty = some .error) →
    ∃ d ∈ analyzed.log, d.kind = .typing
  faultless : analyzed.log = [] → ∀ e ∈ analyzed.package.exprs,
    e.annot.ty ≠ some .error ∧ e.annot.ty ≠ some .unsupported

namespace Package

/-- If analysis is not cut short, its annotations are complete, and no mistake in them is silent. -/
theorem annotations_complete {package : Package} (hanalysis : package.analyze.analysis?.isSome) :
    package.analyze.Annotated := by
  obtain ⟨_, _, _, _, _, hnone⟩ | ⟨classes, b, found, h⟩ := package.analyze_cases
  · simp [hnone] at hanalysis
  have hrecorded := h.recorded_tree
  refine ⟨fun e hmem => (hrecorded.expr hmem).typed, fun path hmem => (hrecorded.path hmem).1,
    fun _ => hrecorded.declaration, fun _ => hrecorded.name, ?_, fun hlog e hmem => ?_⟩
  · rintro ⟨e, hmem, herror⟩
    by_contra hnone
    push Not at hnone
    obtain rfl := h.found_eq_nil hnone
    exact (h.faultless hmem).1 herror
  · obtain rfl := h.found_eq_nil (by simp [hlog])
    exact h.faultless hmem

/-- A program with a sum that has no type: `System.out.println(1 + true);` -/
def untypedSum : Package where
  classes := [{
    name := "Main"
    fields := []
    methods := [.main [.println (.binary {} .add (.int {} 1) (.bool {} true))]] }]

theorem annotations_complete_untypedSum : untypedSum.analyze.analysis?.isSome = true ∧
    (∃ e ∈ untypedSum.analyze.package.exprs, e.annot.ty = some .error) ∧
      untypedSum.analyze.Annotated :=
  ⟨by decide +kernel, by decide +kernel, annotations_complete (by decide +kernel)⟩

end Package

end SmallJava
