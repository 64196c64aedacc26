import SmallJava.Proofs.Acceptance.Expressions
import SmallJava.Proofs.Acceptance.Growth
import SmallJava.Proofs.Typing.StmtSoundness

namespace SmallJava

open Walk

/-- Between two statements the names in force are those that the rules know. -/
structure Bindings.Tracks (decls : List ClassDef) (cls : ClassDef) (b : Bindings)
    (method : MethodContext) (E : Source.Env) : Prop where
  models : b.Models decls cls method E
  ready : E.initializing = none

/-- A part of a method is analysed without a report exactly if the rules allow it, and the names in
force after it are those that the rules know. -/
structure Walk.Follows {α ν : Type} (decls : List ClassDef) (cls : ClassDef)
    (method : MethodContext) (part : Walk ν α) (rule : Source.Env → Source.Env → Prop) : Prop where
  appends : ∀ b, (part b).Ensures fun _ => True
  corresponds : ∀ {b E}, b.Tracks decls cls method E →
    Corresponds (fun result E' => result.2.Tracks decls cls method E') (Check.Passes (part b)) (rule E)

section Follows

variable {μ ν α β : Type} {decls : List ClassDef} {cls : ClassDef} {method : MethodContext}
  {R S : Source.Env → Source.Env → Prop}

/-- What a walk tracks is what the analysis of an expression there starts from. -/
theorem Bindings.Tracks.env {b : Bindings} {E : Source.Env} (h : b.Tracks decls cls method E) :
    (b.env method).Models decls cls E where
  models := h.models
  initializing := fun name found _ => iff_of_false nofun (by simp [h.ready])
  declared := by
    intro name hname
    rw [h.ready] at hname
    cases hname

namespace Walk

/-- Two descriptions of a step that mean the same are followed alike. -/
theorem Follows.congr {part : Walk ν α} (h : part.Follows decls cls method R)
    (hiff : ∀ E E', R E E' ↔ S E E') : part.Follows decls cls method S where
  appends := h.appends
  corresponds := fun htracks => by
    obtain ⟨hsound, hcomplete⟩ := h.corresponds htracks
    simp only [hiff] at hsound hcomplete
    exact ⟨hsound, hcomplete⟩

theorem follows_pure {a : α} :
    Follows decls cls method (pure a : Walk ν α) fun E E' => E' = E where
  appends := fun _ => Check.ensures_pure trivial
  corresponds := fun htracks => by
    constructor
    · intro result hresult
      obtain rfl := (Check.accepts_pure.iff result).1 hresult
      exact ⟨_, htracks, rfl⟩
    · rintro _ rfl
      exact ⟨_, htracks, (Check.accepts_pure.iff _).2 rfl⟩

/-- The rules for two parts one after the other. -/
theorem Follows.bind {part : Walk ν α} {f : α → Walk ν β} (hpart : part.Follows decls cls method R)
    (hf : ∀ a, (f a).Follows decls cls method S) :
    Follows decls cls method (part >>= f) fun E E' => ∃ mid, R E mid ∧ S mid E' where
  appends := fun b => (hpart.appends b).bind fun result =>
    ((hf result.1).appends result.2).weaken fun _ _ _ => trivial
  corresponds := by
    intro b E htracks
    have hiff := fun result : β × Bindings => ((Check.accepts_passes (hpart.appends b)).bind fun mid =>
      Check.accepts_passes ((hf mid.1).appends mid.2)).iff result
    constructor
    · intro result hresult
      obtain ⟨mid, hfirst, hrest⟩ := (hiff result).1 hresult
      obtain ⟨E₁, htracks, hR⟩ := (hpart.corresponds htracks).sound mid hfirst
      obtain ⟨E₂, htracks, hS⟩ := ((hf mid.1).corresponds htracks).sound result hrest
      exact ⟨E₂, htracks, E₁, hR, hS⟩
    · rintro E₂ ⟨E₁, hR, hS⟩
      obtain ⟨mid, htracks, hfirst⟩ := (hpart.corresponds htracks).complete E₁ hR
      obtain ⟨result, htracks, hrest⟩ := ((hf mid.1).corresponds htracks).complete E₂ hS
      exact ⟨result, htracks, (hiff result).2 ⟨mid, hfirst, hrest⟩⟩

/-- Where a part stands in its node does not matter to what it does. -/
theorem Follows.within {part : Walk μ α} (h : part.Follows decls cls method R) (rebuild : μ → ν) :
    Follows decls cls method (within rebuild part) R where
  appends := fun b => (h.appends b).within rebuild
  corresponds := by
    intro b E htracks
    have hiff := fun result =>
      (((Check.accepts_passes (h.appends b)).within rebuild).iff result).symm
    obtain ⟨hsound, hcomplete⟩ := h.corresponds htracks
    simp only [hiff] at hsound hcomplete
    exact ⟨hsound, hcomplete⟩

theorem Follows.map {part : Walk ν α} {f : α → β} (h : part.Follows decls cls method R) :
    Follows decls cls method (f <$> part) R := by
  rw [map_eq_pure_bind]
  exact (h.bind fun a => follows_pure).congr fun E E' => by simp

/-- Entering a block opens an empty innermost block in the judgement. -/
theorem follows_push : Follows decls cls method (onScope Scope.push : Walk ν Unit)
    fun E E' => E' = E.enter where
  appends := fun _ => Check.ensures_pure trivial
  corresponds := fun htracks => by
    constructor
    · intro result hresult
      obtain rfl := (Check.accepts_pure.iff result).1 hresult
      exact ⟨_, ⟨htracks.models.push, htracks.ready⟩, rfl⟩
    · rintro _ rfl
      exact ⟨_, ⟨htracks.models.push, htracks.ready⟩, (Check.accepts_pure.iff _).2 rfl⟩

/-- Leaving a block drops the innermost one. -/
theorem follows_pop : Follows decls cls method (onScope Scope.pop : Walk ν Unit)
    fun E E' => E' = E.leave where
  appends := fun _ => Check.ensures_pure trivial
  corresponds := by
    intro b E htracks
    have hready : E.leave.initializing = none := by
      unfold Source.Env.leave
      split <;> exact htracks.ready
    constructor
    · intro result hresult
      obtain rfl := (Check.accepts_pure.iff result).1 hresult
      exact ⟨_, ⟨htracks.models.pop, hready⟩, rfl⟩
    · rintro _ rfl
      exact ⟨_, ⟨htracks.models.pop, hready⟩, (Check.accepts_pure.iff _).2 rfl⟩

/-- A part that declares nothing. -/
theorem follows_inEnv {part : Env → Check ν α} {P : Env → α → Prop} {rule : Source.Env → Prop}
    (hensures : ∀ env, (part env).Ensures (P env)) (h : ∀ env E, env.Models decls cls E →
      env.method = method → ((∃ a, (part env).Passes a) ↔ rule E)) :
    Follows decls cls method (inEnv method part) fun E E' => rule E ∧ E' = E where
  appends := fun b => (ensures_inEnv hensures b).appends
  corresponds := by
    intro b E htracks
    have hrule := h _ E htracks.env rfl
    have hiff := fun result : α × Bindings =>
      (accepts_lift (Check.accepts_passes (hensures (b.env method)))).iff b result.1 result.2
    constructor
    · intro result hresult
      obtain ⟨hpasses, hsame⟩ := (hiff result).1 hresult
      rw [hsame]
      exact ⟨E, htracks, hrule.1 ⟨_, hpasses⟩, rfl⟩
    · rintro _ ⟨hE, rfl⟩
      obtain ⟨a, hpasses⟩ := hrule.2 hE
      exact ⟨(a, b), htracks, (hiff (a, b)).2 ⟨hpasses, rfl⟩⟩

/-- A report that is empty exactly under a condition makes this condition part of the rule. -/
theorem follows_report {found : List Diagnostic} {φ : Prop} (h : found = [] ↔ φ) :
    Follows decls cls method (report found : Walk ν Unit) fun E E' => φ ∧ E' = E where
  appends := fun b => (ensures_report b).appends
  corresponds := by
    intro b E htracks
    have haccepts : Accepts (report found : Walk ν Unit) _ := accepts_report
    have hiff := fun result : Unit × Bindings => haccepts.iff b result.1 result.2
    constructor
    · intro result hresult
      obtain ⟨hnone, hsame⟩ := (hiff result).1 hresult
      rw [hsame]
      exact ⟨E, htracks, h.1 hnone, rfl⟩
    · rintro _ ⟨hφ, rfl⟩
      exact ⟨((), b), htracks, (hiff ((), b)).2 ⟨h.2 hφ, rfl⟩⟩

end Walk

end Follows

section Parts

variable {decls : List ClassDef} {cls : ClassDef} {env : Env} {E : Source.Env}

/-- A condition passes as the expression it is, if nothing is wrong with its type. -/
theorem Expr.accepts_condition {construct : String} {cond : Expr} :
    (cond.checkCondition construct env).Accepts fun cond' => ∃ found, (cond.analyze env).Passes found ∧
      Typing.required env.table s!"{construct} condition" .boolean found.2 found.1.span = [] ∧
        cond' = found.1 := by
  refine (Check.accepts_passes (cond.analyze_ensures env)).bind fun _ => ?_
  refine .after_report ?_
  exact Check.accepts_pure

/-- A condition is analysed without a report exactly if it is a truth value. -/
theorem Expr.checkCondition_iff (h : env.Models decls cls E) (construct : String) (cond : Expr) :
    (∃ cond', (cond.checkCondition construct env).Passes cond') ↔ Source.HasType E cond .boolean := by
  have hcond := cond.analyze_corresponds h
  constructor
  · rintro ⟨cond', hcond'⟩
    obtain ⟨found, hpasses, hrequired, rfl⟩ := (accepts_condition.iff cond').1 hcond'
    obtain ⟨τ, hmeans, htype⟩ := hcond.sound found hpasses
    obtain rfl := hmeans.agrees_boolean_iff.1 (Typing.required_eq_nil_iff.1 hrequired)
    exact htype
  · intro htype
    obtain ⟨found, hmeans, hpasses⟩ := hcond.complete _ htype
    have hrequired := hmeans.agrees_boolean_iff.2 rfl
    exact ⟨_, (accepts_condition.iff _).2
      ⟨found, hpasses, Typing.required_eq_nil_iff.2 hrequired, rfl⟩⟩

namespace Stmt

/-! What it takes to analyse a statement without parts of its own without a report. -/

variable {span : Span} {target : Reference} {value : Expr}

/-- An assignment passes with its target and its value, if the one can take the other. -/
theorem accepts_assign : (analyzeAssign span target value env).Accepts fun stmt =>
    ∃ target', target.analyze env = .ok target' ∧ ∃ value', (value.analyze env).Passes value' ∧
      Typing.assignment env.table target'.1 target'.2 value'.2 span = [] ∧
        stmt = assign span target'.1 value'.1 := by
  have hvalue := Check.accepts_passes (value.analyze_ensures env)
  refine (target.check_accepts env _).bind fun _ => ?_
  refine (hvalue.within _).bind fun _ => ?_
  refine .after_report ?_
  exact Check.accepts_pure

/-- An assignment to an element passes with its three parts, if the target has elements that can
take the value and the index is an integer. -/
theorem accepts_indexAssign {subscript : Expr} :
    (analyzeIndexAssign span target subscript value env).Accepts fun stmt =>
      ∃ target', target.analyze env = .ok target' ∧
        ∃ subscript', (subscript.analyze env).Passes subscript' ∧
          ∃ value', (value.analyze env).Passes value' ∧
            ∃ elem, Typing.element env.table target'.1 target'.2 span = (elem, []) ∧
              Typing.required env.table "array index" .int subscript'.2 subscript'.1.span = [] ∧
                Typing.stored env.table elem value'.2 span = [] ∧
                  stmt = indexAssign span target'.1 subscript'.1 value'.1 := by
  have hsubscript := Check.accepts_passes (subscript.analyze_ensures env)
  have hvalue := Check.accepts_passes (value.analyze_ensures env)
  refine (target.check_accepts env _).bind fun _ => ?_
  refine (hsubscript.within _).bind fun _ => ?_
  refine (hvalue.within _).bind fun _ => ?_
  refine Check.accepts_conclude.bind fun _ => ?_
  refine .after_report ?_
  refine .after_report ?_
  exact Check.accepts_pure

/-- A call statement passes if the call does, whose result it drops. -/
theorem accepts_callStmt {callee : Reference} {args : List Expr} :
    (analyzeCall span callee args env).Accepts fun stmt => ∃ result,
      (Typing.checkCall env span callee args (Expr.analyzeAll env args)).Passes result ∧
        stmt = call span result.1 result.2.1 := by
  have hcall := Check.accepts_passes (Typing.checkCall_accepts env span callee args).appends
  refine (hcall.within _).bind fun _ => ?_
  exact Check.accepts_pure

/-- A return without a value passes if the method has no result. -/
theorem accepts_return_none : (analyzeReturn span none env).Accepts fun stmt =>
    Typing.returned env.table env.method.returnTy none span = [] ∧ stmt = .return span none := by
  refine .after_report ?_
  exact Check.accepts_pure

/-- A return with a value passes with the value, if the method has a result that it fits. -/
theorem accepts_return_some : (analyzeReturn span (some value) env).Accepts fun stmt =>
    ∃ value', (value.analyze env).Passes value' ∧
      Typing.returned env.table env.method.returnTy (some value'.2) span = [] ∧
        stmt = .return span (some value'.1) := by
  have hvalue := Check.accepts_passes (value.analyze_ensures env)
  refine (hvalue.within _).bind fun _ => ?_
  refine .after_report ?_
  exact Check.accepts_pure

/-- An assignment passes exactly if its target is a place that takes the type of the value. -/
theorem analyzeAssign_iff (h : env.Models decls cls E) : (∃ stmt, (analyzeAssign span target value env).Passes stmt) ↔
      ∃ expected found, Source.Refers E target (.place expected) ∧ Source.HasType E value found ∧
        expected.Matches found := by
  have htarget := target.analyze_corresponds h
  have hvalue := value.analyze_corresponds h
  have hdescribes := h.models.knows.describes
  constructor
  · rintro ⟨stmt, hstmt⟩
    obtain ⟨target', hanalyze, value', hpasses, hassignment, rfl⟩ :=
      (accepts_assign.iff stmt).1 hstmt
    obtain ⟨entity, hstands, hrefers⟩ := htarget.sound _ hanalyze
    obtain ⟨found, hmeans, htype⟩ := hvalue.sound _ hpasses
    obtain ⟨expected, rfl, hmatches⟩ :=
      (Typing.assignment_eq_nil_iff hdescribes hstands hmeans).1 hassignment
    exact ⟨expected, found, hrefers, htype, hmatches⟩
  · rintro ⟨expected, found, hrefers, htype, hmatches⟩
    obtain ⟨target', hstands, hanalyze⟩ := htarget.complete _ hrefers
    obtain ⟨value', hmeans, hpasses⟩ := hvalue.complete _ htype
    exact ⟨_, (accepts_assign.iff _).2 ⟨target', hanalyze, value', hpasses,
      (Typing.assignment_eq_nil_iff hdescribes hstands hmeans).2 ⟨expected, rfl, hmatches⟩, rfl⟩⟩

/-- An assignment to an element passes exactly if the target is an array, the index an integer, and
the value of an element type that fits. -/
theorem analyzeIndexAssign_iff (h : env.Models decls cls E) {subscript : Expr} :
    (∃ stmt, (analyzeIndexAssign span target subscript value env).Passes stmt) ↔
      ∃ entity elem found, Source.Refers E target entity ∧ entity.ty? = some (.array elem) ∧
        Source.HasType E subscript .int ∧ Source.HasType E value found ∧ elem.Matches found := by
  have htarget := target.analyze_corresponds h
  have hsubscript := subscript.analyze_corresponds h
  have hvalue := value.analyze_corresponds h
  have hdescribes := h.models.knows.describes
  constructor
  · rintro ⟨stmt, hstmt⟩
    obtain ⟨target', hanalyze, subscript', hpasses, value', hpasses', elem, helem, hrequired, hstored,
      rfl⟩ := (accepts_indexAssign.iff stmt).1 hstmt
    obtain ⟨entity, hstands, hrefers⟩ := htarget.sound _ hanalyze
    obtain ⟨τ, hmeans, htype⟩ := hsubscript.sound _ hpasses
    obtain rfl := hmeans.agrees_int_iff.1 (Typing.required_eq_nil_iff.1 hrequired)
    obtain ⟨found, hmeans', htype'⟩ := hvalue.sound _ hpasses'
    obtain ⟨elemTy, hmeans'', hτ⟩ := (Typing.element_corresponds hdescribes hstands).sound _ helem
    exact ⟨entity, elemTy, found, hrefers, hτ, htype, htype',
      (hmeans''.agrees_iff hdescribes hmeans').1 (Typing.stored_eq_nil_iff.1 hstored)⟩
  · rintro ⟨entity, elemTy, found, hrefers, hτ, htype, htype', hmatches⟩
    obtain ⟨target', hstands, hanalyze⟩ := htarget.complete _ hrefers
    obtain ⟨subscript', hmeans, hpasses⟩ := hsubscript.complete _ htype
    obtain ⟨value', hmeans', hpasses'⟩ := hvalue.complete _ htype'
    obtain ⟨elem, hmeans'', helem⟩ := (Typing.element_corresponds hdescribes hstands).complete _ hτ
    have hrequired := hmeans.agrees_int_iff.2 rfl
    have hagrees := (hmeans''.agrees_iff hdescribes hmeans').2 hmatches
    exact ⟨_, (accepts_indexAssign.iff _).2 ⟨target', hanalyze, subscript', hpasses, value', hpasses',
      elem, helem, Typing.required_eq_nil_iff.2 hrequired, Typing.stored_eq_nil_iff.2 hagrees, rfl⟩⟩

/-- A call statement passes exactly if the callee is a method and the arguments fit its parameters.
-/
theorem analyzeCall_iff (h : env.Models decls cls E) {callee : Reference} {args : List Expr} :
    (∃ stmt, (analyzeCall span callee args env).Passes stmt) ↔
      ∃ sig, Source.Refers E callee (.method sig) ∧ Source.ArgsFit E sig.params args := by
  have hcall := Typing.checkCall_corresponds h callee span
    (Expr.analyzeAll_corresponds h args)
  constructor
  · rintro ⟨stmt, hstmt⟩
    obtain ⟨result, hresult, rfl⟩ := (accepts_callStmt.iff stmt).1 hstmt
    obtain ⟨τ, -, sig, hrefers, hfit, -⟩ := hcall.sound result hresult
    exact ⟨sig, hrefers, hfit⟩
  · rintro ⟨sig, hrefers, hfit⟩
    obtain ⟨τ, hdenotes⟩ : ∃ τ, Source.Denotes E.classes sig.returnType τ := by
      obtain ⟨callee', hstands, -⟩ := (callee.analyze_corresponds h).complete _ hrefers
      rw [h.models.classes]
      exact hstands.denotes_returnType h.models.knows
    obtain ⟨result, -, hresult⟩ := hcall.complete τ ⟨sig, hrefers, hfit, hdenotes⟩
    exact ⟨_, (accepts_callStmt.iff _).2 ⟨result, hresult, rfl⟩⟩

/-- A return without a value passes exactly in a method without a result. -/
theorem analyzeReturn_none_iff (h : env.Models decls cls E) :
    (∃ stmt, (analyzeReturn span none env).Passes stmt) ↔ E.returnTy = .void := by
  have hreturned := Typing.returned_none_eq_nil_iff env.table span h.models.returnTy
  constructor
  · rintro ⟨stmt, hstmt⟩
    exact hreturned.1 ((accepts_return_none.iff stmt).1 hstmt).1
  · intro hvoid
    exact ⟨_, (accepts_return_none.iff _).2 ⟨hreturned.2 hvoid, rfl⟩⟩

/-- A return with a value passes exactly if the method has a result of a type that takes it. -/
theorem analyzeReturn_some_iff (h : env.Models decls cls E) :
    (∃ stmt, (analyzeReturn span (some value) env).Passes stmt) ↔
      ∃ found, E.returnTy ≠ .void ∧ Source.HasType E value found ∧ E.returnTy.Matches found := by
  have hvalue := value.analyze_corresponds h
  have hdescribes := h.models.knows.describes
  constructor
  · rintro ⟨stmt, hstmt⟩
    obtain ⟨value', hpasses, hreturned, rfl⟩ := (accepts_return_some.iff stmt).1 hstmt
    obtain ⟨found, hmeans, htype⟩ := hvalue.sound _ hpasses
    obtain ⟨hvoid, hmatches⟩ :=
      (Typing.returned_some_eq_nil_iff hdescribes h.models.returnTy hmeans).1 hreturned
    exact ⟨found, hvoid, htype, hmatches⟩
  · rintro ⟨found, hvoid, htype, hmatches⟩
    obtain ⟨value', hmeans, hpasses⟩ := hvalue.complete _ htype
    exact ⟨_, (accepts_return_some.iff _).2 ⟨value', hpasses, (Typing.returned_some_eq_nil_iff hdescribes
      h.models.returnTy hmeans).2 ⟨hvoid, hmatches⟩, rfl⟩⟩

end Stmt

end Parts

namespace Stmt

variable {decls : List ClassDef} {cls : ClassDef} {method : MethodContext}

/-- A declaration is analysed without a report exactly if the rules allow it. -/
theorem analyzeVarDecl_follows (span : Span) (var : LocalDef) (init : Expr) :
    (analyzeVarDecl method span var init).Follows decls cls method fun E E' =>
      ∃ block, Source.Valid E (.varDecl span var init) block ∧ E' = { E with block } where
  appends := fun b => (analyzeVarDecl_ensures false method span var init b).appends
  corresponds := by
    intro b E htracks
    have haccepts : (analyzeVarDecl method span var init).Accepts _ :=
      accepts_get.bind fun bindings => (accepts_lift Check.accepts_orAbort).bind fun ty =>
        (accepts_lift Check.accepts_orAbort).bind fun scope => accepts_set.bind fun _ =>
          (accepts_lift ((Check.accepts_passes (init.analyze_ensures _)).within _)).bind fun init' =>
            accepts_report.bind fun _ => accepts_pure
    have hmodels := htracks.models
    have hresolves := hmodels.knows.resolve_corresponds var.type
    rw [← hmodels.classes] at hresolves
    constructor
    · rintro ⟨stmt, after⟩ hresult
      obtain ⟨_, _, ⟨rfl, rfl⟩, ty, _, ⟨hresolve, rfl⟩, scope, _, ⟨hdeclare, rfl⟩, _, _, rfl, init', _,
        ⟨hinit, rfl⟩, _, _, ⟨hinitial, rfl⟩, -, rfl⟩ := (haccepts.iff _ _ _).1 hresult
      obtain ⟨τ, hty, hdenotes⟩ := hresolves.sound _ hresolve
      have hwritten := TypeExpr.isWritten_of_resolve hresolve
      have henv := hmodels.duringInit hwritten hty hdeclare
      obtain ⟨found, hmeans, htype⟩ := (init.analyze_corresponds henv).sound _ hinit
      have hmatches := (hty.agrees_iff hmodels.knows.describes hmeans).1
        (Typing.initial_eq_nil_iff.1 hinitial)
      have hfresh := (hmodels.declareLocal_iff _ _ _).1 ⟨scope, hdeclare⟩
      exact ⟨_, ⟨hmodels.declare hwritten hty hdeclare, htracks.ready⟩, _,
        .varDecl hdenotes hfresh htype hmatches, rfl⟩
    · rintro _ ⟨block, hvalid, rfl⟩
      cases hvalid with
      | varDecl hdenotes hfresh htype hmatches =>
        obtain ⟨ty, hty, hresolve⟩ := hresolves.complete _ hdenotes
        obtain ⟨scope, hdeclare⟩ := (hmodels.declareLocal_iff _ b.table.nextId var.span).2 hfresh
        have hwritten := TypeExpr.isWritten_of_resolve hresolve
        have henv := hmodels.duringInit hwritten hty hdeclare
        obtain ⟨init', hmeans, hinit⟩ := (init.analyze_corresponds henv).complete _ htype
        have hagrees := (hty.agrees_iff hmodels.knows.describes hmeans).2 hmatches
        exact ⟨(_, _), ⟨hmodels.declare hwritten hty hdeclare, htracks.ready⟩, (haccepts.iff _ _ _).2
          ⟨_, _, ⟨rfl, rfl⟩, ty, _, ⟨hresolve, rfl⟩, scope, _, ⟨hdeclare, rfl⟩, (), _, rfl, init', _,
            ⟨hinit, rfl⟩, (), _, ⟨Typing.initial_eq_nil_iff.2 hagrees, rfl⟩, rfl, rfl⟩⟩

/-- The rules for a branch. -/
theorem analyzeBranch_follows {stmt : Stmt} {analysis : Walk Stmt Stmt}
    (h : analysis.Follows decls cls method fun E E' =>
      ∃ block, Source.Valid E stmt block ∧ E' = { E with block }) :
    (analyzeBranch stmt analysis).Follows decls cls method fun E E' =>
      Source.ValidBranch E stmt ∧ E' = E := by
  refine ((follows_report Typing.branch_eq_nil_iff).bind fun _ => follows_push.bind fun _ =>
    h.bind fun stmt' => follows_pop.bind fun _ => follows_pure).congr fun E E' => ?_
  constructor
  · rintro ⟨_, ⟨hdecl, rfl⟩, _, rfl, _, ⟨block, hvalid, rfl⟩, _, rfl, rfl⟩
    exact ⟨.mk hdecl hvalid, rfl⟩
  · rintro ⟨⟨hdecl, hvalid⟩, rfl⟩
    exact ⟨_, ⟨hdecl, rfl⟩, _, rfl, _, ⟨_, hvalid, rfl⟩, _, rfl, rfl⟩

theorem condition_follows (construct : String) (cond : Expr) :
    (inEnv method (cond.checkCondition construct)).Follows decls cls method fun E E' =>
      Source.HasType E cond .boolean ∧ E' = E :=
  follows_inEnv (cond.checkCondition_ensures construct) fun _ _ h _ =>
    cond.checkCondition_iff h construct

/-- A loop without a condition needs nothing; otherwise the condition has to be a truth value. -/
theorem loopCondition_follows (cond : Option Expr) :
    Walk.Follows decls cls method (match cond with
      | none => pure none
      | some cond => some <$> within some (inEnv method (cond.checkCondition "for")))
      fun E E' => (∀ expr, cond = some expr → Source.HasType E expr .boolean) ∧ E' = E := by
  cases cond with
  | none => exact follows_pure.congr fun E E' => by simp
  | some cond =>
    exact (((condition_follows "for" cond).within _).map).congr fun E E' => by simp

/-- A statement that declares nothing. -/
theorem plain_follows {stmt : Stmt} {part : Env → Check Stmt Stmt} {rule : Source.Env → Prop}
    (hensures : ∀ env, (part env).Ensures (Plain env))
    (hpart : ∀ env E, env.Models decls cls E → ((∃ stmt', (part env).Passes stmt') ↔ rule E))
    (hrule : ∀ E block, Source.Valid E stmt block ↔ rule E ∧ block = E.block) :
    (inEnv method part).Follows decls cls method fun E E' =>
      ∃ block, Source.Valid E stmt block ∧ E' = { E with block } := by
  refine (follows_inEnv hensures fun env E h _ => hpart env E h).congr fun E E' => ?_
  simp only [hrule]
  constructor
  · rintro ⟨hE, rfl⟩
    exact ⟨_, ⟨hE, rfl⟩, rfl⟩
  · rintro ⟨_, ⟨hE, rfl⟩, rfl⟩
    exact ⟨hE, rfl⟩

mutual

/-- A statement is analysed without a report exactly if it follows the rules. -/
theorem analyze_follows : (stmt : Stmt) →
    (analyze method stmt).Follows decls cls method fun E E' =>
      ∃ block, Source.Valid E stmt block ∧ E' = { E with block }
  | .block span stmts => by
    refine (follows_push.bind fun _ => ((analyzeAll_follows stmts).within _).bind fun stmts' =>
      follows_pop.bind fun _ => follows_pure).congr fun E E' => ?_
    constructor
    · rintro ⟨_, rfl, _, ⟨block, hvalid, rfl⟩, _, rfl, rfl⟩
      exact ⟨_, .block hvalid, rfl⟩
    · rintro ⟨_, ⟨hvalid⟩, rfl⟩
      exact ⟨_, rfl, _, ⟨_, hvalid, rfl⟩, _, rfl, rfl⟩
  | .varDecl span var init => analyzeVarDecl_follows span var init
  | .assign span target value =>
    plain_follows (analyzeAssign_ensures span target value) (fun _ _ h => analyzeAssign_iff h)
      fun E block => by
        constructor
        · intro hvalid
          cases hvalid with
          | assign htarget hvalue hmatches => exact ⟨⟨_, _, htarget, hvalue, hmatches⟩, rfl⟩
        · rintro ⟨⟨_, _, htarget, hvalue, hmatches⟩, rfl⟩
          exact .assign htarget hvalue hmatches
  | .indexAssign span target subscript value =>
    plain_follows (analyzeIndexAssign_ensures span target subscript value)
      (fun _ _ h => analyzeIndexAssign_iff h) fun E block => by
        constructor
        · intro hvalid
          cases hvalid with
          | indexAssign htarget harray hsubscript hvalue hmatches =>
            exact ⟨⟨_, _, _, htarget, harray, hsubscript, hvalue, hmatches⟩, rfl⟩
        · rintro ⟨⟨_, _, _, htarget, harray, hsubscript, hvalue, hmatches⟩, rfl⟩
          exact .indexAssign htarget harray hsubscript hvalue hmatches
  | .call span callee args =>
    plain_follows (analyzeCall_ensures span callee args) (fun _ _ h => analyzeCall_iff h)
      fun E block => by
        constructor
        · intro hvalid
          cases hvalid with
          | call hcallee hargs => exact ⟨⟨_, hcallee, hargs⟩, rfl⟩
        · rintro ⟨⟨_, hcallee, hargs⟩, rfl⟩
          exact .call hcallee hargs
  | .return span none =>
    plain_follows (analyzeReturn_ensures span none) (fun _ _ h => analyzeReturn_none_iff h)
      fun E block => by
        constructor
        · intro hvalid
          cases hvalid with
          | returnNothing hvoid => exact ⟨hvoid, rfl⟩
        · rintro ⟨hvoid, rfl⟩
          exact .returnNothing hvoid
  | .return span (some value) =>
    plain_follows (analyzeReturn_ensures span (some value)) (fun _ _ h => analyzeReturn_some_iff h)
      fun E block => by
        constructor
        · intro hvalid
          cases hvalid with
          | returnValue hvoid hvalue hmatches => exact ⟨⟨_, hvoid, hvalue, hmatches⟩, rfl⟩
        · rintro ⟨⟨_, hvoid, hvalue, hmatches⟩, rfl⟩
          exact .returnValue hvoid hvalue hmatches
  | .ifElse span cond onTrue none => by
    refine (((condition_follows "if" cond).within _).bind fun cond' =>
      ((analyzeBranch_follows (analyze_follows onTrue)).within _).bind fun onTrue' =>
        follows_pure).congr fun E E' => ?_
    constructor
    · rintro ⟨_, ⟨hcond, rfl⟩, _, ⟨htrue, rfl⟩, rfl⟩
      exact ⟨_, .ifThen hcond htrue, rfl⟩
    · rintro ⟨_, hvalid, rfl⟩
      cases hvalid with
      | ifThen hcond htrue =>
        exact ⟨_, ⟨hcond, rfl⟩, _, ⟨htrue, rfl⟩, rfl⟩
  | .ifElse span cond onTrue (some onFalse) => by
    refine (((condition_follows "if" cond).within _).bind fun cond' =>
      ((analyzeBranch_follows (analyze_follows onTrue)).within _).bind fun onTrue' =>
        ((analyzeBranch_follows (analyze_follows onFalse)).within _).bind fun onFalse' =>
          follows_pure).congr fun E E' => ?_
    constructor
    · rintro ⟨_, ⟨hcond, rfl⟩, _, ⟨htrue, rfl⟩, _, ⟨hfalse, rfl⟩, rfl⟩
      exact ⟨_, .ifElse hcond htrue hfalse, rfl⟩
    · rintro ⟨_, hvalid, rfl⟩
      cases hvalid with
      | ifElse hcond htrue hfalse =>
        exact ⟨_, ⟨hcond, rfl⟩, _, ⟨htrue, rfl⟩, _, ⟨hfalse, rfl⟩, rfl⟩
  | .while span cond body => by
    refine (((condition_follows "while" cond).within _).bind fun cond' =>
      ((analyzeBranch_follows (analyze_follows body)).within _).bind fun body' =>
        follows_pure).congr fun E E' => ?_
    constructor
    · rintro ⟨_, ⟨hcond, rfl⟩, _, ⟨hbody, rfl⟩, rfl⟩
      exact ⟨_, .while hcond hbody, rfl⟩
    · rintro ⟨_, hvalid, rfl⟩
      cases hvalid with
      | «while» hcond hbody =>
        exact ⟨_, ⟨hcond, rfl⟩, _, ⟨hbody, rfl⟩, rfl⟩
  | .for span init cond update body => by
    refine (follows_push.bind fun _ => ((analyzeOption_follows init).within _).bind fun init' =>
      ((loopCondition_follows cond).within _).bind fun cond' =>
        ((analyzeOption_follows update).within _).bind fun update' =>
          ((analyzeBranch_follows (analyze_follows body)).within _).bind fun body' =>
            follows_pop.bind fun _ => follows_pure).congr fun E E' => ?_
    constructor
    · rintro ⟨_, rfl, _, ⟨declared, hinit, rfl⟩, _, ⟨hcond, rfl⟩, _, ⟨updated, hupdate, rfl⟩, _,
        ⟨hbody, rfl⟩, _, rfl, rfl⟩
      exact ⟨_, .for hinit hcond hupdate hbody, rfl⟩
    · rintro ⟨_, hvalid, rfl⟩
      cases hvalid with
      | «for» hinit hcond hupdate hbody =>
        exact ⟨_, rfl, _, ⟨_, hinit, rfl⟩, _, ⟨hcond, rfl⟩, _, ⟨_, hupdate, rfl⟩, _, ⟨hbody, rfl⟩, _,
          rfl, rfl⟩

/-- A part that may be missing follows the rule of the part, or none. -/
theorem analyzeOption_follows : (stmt : Option Stmt) →
    (analyzeOption method stmt).Follows decls cls method fun E E' =>
      ∃ block, Source.ValidOption E stmt block ∧ E' = { E with block }
  | none => by
    refine follows_pure.congr fun E E' => ?_
    constructor
    · rintro rfl
      exact ⟨_, .none, rfl⟩
    · rintro ⟨_, ⟨⟩, rfl⟩
      rfl
  | some stmt => by
    refine (((analyze_follows stmt).within _).map).congr fun E E' => ?_
    constructor
    · rintro ⟨block, hvalid, rfl⟩
      exact ⟨block, .some hvalid, rfl⟩
    · rintro ⟨block, _ | hvalid, rfl⟩
      exact ⟨block, hvalid, rfl⟩

/-- Statements are analysed without a report exactly if they follow the rules one by one. -/
theorem analyzeAll_follows : (stmts : List Stmt) →
    (analyzeAll method stmts).Follows decls cls method fun E E' =>
      ∃ block, Source.ValidAll E stmts block ∧ E' = { E with block }
  | [] => by
    refine follows_pure.congr fun E E' => ?_
    constructor
    · rintro rfl
      exact ⟨_, .nil, rfl⟩
    · rintro ⟨_, ⟨⟩, rfl⟩
      rfl
  | stmt :: rest => by
    refine (((analyze_follows stmt).within _).bind fun stmt' =>
      ((analyzeAll_follows rest).within _).bind fun rest' => follows_pure).congr fun E E' => ?_
    constructor
    · rintro ⟨_, ⟨block, hvalid, rfl⟩, _, ⟨block', hrest, rfl⟩, rfl⟩
      exact ⟨block', .cons hvalid hrest, rfl⟩
    · rintro ⟨_, hvalid, rfl⟩
      cases hvalid with
      | cons hfirst hrest => exact ⟨_, ⟨_, hfirst, rfl⟩, _, ⟨_, hrest, rfl⟩, rfl⟩

end

end Stmt

end SmallJava
