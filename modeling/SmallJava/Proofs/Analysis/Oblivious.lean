import SmallJava.Analysis.Package
import SmallJava.Proofs.Outcome

/-! Analysis does not look at what was reported before. -/

namespace SmallJava

variable {μ ν α β : Type}

/-- Whatever was reported before, analysis has this result and reports just this. -/
def Check.Gives (part : Check ν α) (a : α) (found : List Diagnostic) : Prop :=
  ∀ log, part log = .ok a (log ++ found)

/-- The result of an analysis and what it reports do not depend on what was reported before. -/
def Check.Oblivious (part : Check ν α) : Prop :=
  (∃ a found, part.Gives a found) ∨ ∃ node found, ∀ log, part log = .error node (log ++ found)

namespace Check

variable {part : Check ν α} {f : α → Check ν β} {a a' : α} {b : β}
  {found found' : List Diagnostic}

section Gives

theorem gives_pure : Gives (pure a : Check ν α) a [] := by
  intro log
  rw [List.append_nil]
  rfl

theorem gives_report : Gives (report found : Check ν Unit) () found := fun _ => rfl

theorem gives_silence (h : found = []) : Gives (report found : Check ν Unit) () [] := by
  rw [h]
  exact gives_report

theorem gives_orAbort {node : ν} {result : Except Diagnostic α} (h : result = .ok a) :
    (orAbort node result).Gives a [] := by
  rw [h]
  exact gives_pure

theorem Gives.bind (h : part.Gives a found) (hf : (f a).Gives b found') :
    Gives (part >>= f) b (found ++ found') := by
  intro log
  rw [bind_of_ok (h log), hf, List.append_assoc]

/-- Nothing is reported after the first part. -/
theorem Gives.first (h : part.Gives a found) (hf : (f a).Gives b []) :
    Gives (part >>= f) b found := by
  have hboth := h.bind hf
  rwa [List.append_nil] at hboth

/-- Nothing is reported in the first part. -/
theorem Gives.next (h : part.Gives a []) (hf : (f a).Gives b found) : Gives (part >>= f) b found :=
  h.bind hf

theorem Gives.within {part : Check μ α} (h : part.Gives a found) (rebuild : μ → ν) :
    Gives (within rebuild part) a found :=
  fun log => within_eq_ok_iff.2 (h log)

theorem gives_conclude {ty : Ty} : Gives (conclude (ty, found) : Check ν Ty) ty found :=
  gives_report.first gives_pure

/-- An analysis comes to one end only. -/
theorem Gives.unique (h : part.Gives a found) (h' : part.Gives a' found') :
    a' = a ∧ found' = found := by
  obtain ⟨rfl, hlog⟩ := EStateM.Result.ok.inj ((h []).symm.trans (h' []))
  exact ⟨rfl, hlog.symm⟩

end Gives

section Oblivious

theorem Gives.oblivious (h : part.Gives a found) : part.Oblivious := .inl ⟨a, found, h⟩

/-- One run tells what all others do. -/
theorem Oblivious.gives (h : part.Oblivious) (hrun : part [] = .ok a found) :
    part.Gives a found := by
  obtain ⟨a', found', h⟩ | ⟨node, found', h⟩ := h
  · obtain ⟨rfl, rfl⟩ := EStateM.Result.ok.inj (hrun.symm.trans (h []))
    exact h
  · cases hrun.symm.trans (h [])

theorem oblivious_pure : Oblivious (pure a : Check ν α) := gives_pure.oblivious

theorem oblivious_report : Oblivious (report found : Check ν Unit) := gives_report.oblivious

theorem oblivious_abort {node : ν} {fatal : Diagnostic} :
    Oblivious (abort node fatal : Check ν α) :=
  .inr ⟨node, [fatal], fun _ => rfl⟩

theorem oblivious_orAbort {node : ν} {result : Except Diagnostic α} :
    Oblivious (orAbort node result) := by
  cases result with
  | ok a => exact oblivious_pure
  | error fatal => exact oblivious_abort

/-- If the first part ends early the second one is not run; otherwise the reports of both come one
after the other. -/
theorem Oblivious.bind (h : part.Oblivious) (hf : ∀ a, (f a).Oblivious) :
    Oblivious (part >>= f) := by
  obtain ⟨a, found, h⟩ | ⟨node, found, h⟩ := h
  · obtain ⟨b, found', hb⟩ | ⟨node, found', hnode⟩ := hf a
    · exact (h.bind hb).oblivious
    · refine .inr ⟨node, found ++ found', fun log => ?_⟩
      rw [bind_of_ok (h log), hnode, List.append_assoc]
  · exact .inr ⟨node, found, fun log => bind_of_error (h log)⟩

theorem Oblivious.within {part : Check μ α} (h : part.Oblivious) (rebuild : μ → ν) :
    Oblivious (within rebuild part) := by
  obtain ⟨a, found, h⟩ | ⟨node, found, h⟩ := h
  · exact (h.within rebuild).oblivious
  · exact .inr ⟨rebuild node, found, fun log => within_eq_error_iff.2 ⟨node, h log, rfl⟩⟩

theorem oblivious_conclude {verdict : Ty × List Diagnostic} :
    Oblivious (conclude verdict : Check ν Ty) := gives_conclude.oblivious

/-- The way most analyses of an expression end. -/
theorem oblivious_concluded {verdict : Ty × List Diagnostic} {f : Ty → α} :
    Oblivious (conclude verdict >>= fun ty => pure (f ty) : Check ν α) :=
  oblivious_conclude.bind fun _ => oblivious_pure

/-- The way most analyses of a statement end. -/
theorem oblivious_reported : Oblivious (report found >>= fun _ => pure a : Check ν α) :=
  oblivious_report.bind fun _ => oblivious_pure

end Oblivious

section Silent

/-- A sequence that reports nothing consists of parts that report nothing. -/
theorem Gives.of_bind (h : Gives (part >>= f) b []) (hpart : part.Oblivious)
    (hf : ∀ a, (f a).Oblivious) : ∃ a, part.Gives a [] ∧ (f a).Gives b [] := by
  obtain ⟨a, mid, hfirst, hrest⟩ := bind_eq_ok_iff.1 (h [])
  have hgives := hpart.gives hfirst
  obtain ⟨b', found, hb⟩ | ⟨node, found, hnode⟩ := hf a
  · obtain ⟨rfl, hlog⟩ := (h.unique (hgives.bind hb))
    obtain ⟨rfl, rfl⟩ := List.append_eq_nil_iff.1 hlog
    exact ⟨a, hgives, hb⟩
  · cases hrest.symm.trans (hnode mid)

theorem Gives.of_within {part : Check μ α} {rebuild : μ → ν}
    (h : (Check.within rebuild part).Gives a found) : part.Gives a found :=
  fun log => within_eq_ok_iff.1 (h log)

theorem Gives.of_report (h : (report found : Check ν Unit).Gives () []) : found = [] :=
  (h.unique gives_report).2

theorem Gives.of_conclude {verdict : Ty × List Diagnostic} {ty : Ty}
    (h : (conclude verdict : Check ν Ty).Gives ty []) : verdict = (ty, []) := by
  obtain ⟨found, mistakes⟩ := verdict
  obtain ⟨rfl, rfl⟩ := h.unique gives_conclude
  rfl

theorem Gives.of_pure (h : (pure a' : Check ν α).Gives a []) : a' = a :=
  (h.unique gives_pure).1

end Silent

end Check

/-- Whatever was reported before, analysis that starts with these names and declarations has this
result, leaves those names and declarations, and reports just this. -/
def Walk.Gives (part : Walk ν α) (before : Bindings) (a : α) (after : Bindings)
    (found : List Diagnostic) : Prop :=
  Check.Gives (part before) (a, after) found

def Walk.Oblivious (part : Walk ν α) : Prop := ∀ b, Check.Oblivious (part b)

namespace Walk

variable {part : Walk ν α} {f : α → Walk ν β} {before mid after b : Bindings} {a : α} {c : β}
  {found : List Diagnostic}

theorem gives_pure : Gives (pure a : Walk ν α) b a b [] := Check.gives_pure

theorem gives_get : Gives (get : Walk ν Bindings) b b b [] := Check.gives_pure

theorem gives_set : Gives (set after : Walk ν PUnit) b ⟨⟩ after [] := Check.gives_pure

theorem gives_onScope {g : Scope → Scope} :
    Gives (onScope g : Walk ν Unit) b () { b with scope := g b.scope } [] := Check.gives_pure

theorem gives_lift {part : Check ν α} (h : part.Gives a found) :
    Gives (liftM part : Walk ν α) b a b found :=
  Check.Gives.first (f := fun a => pure (a, b)) h Check.gives_pure

theorem Gives.first (h : part.Gives before a mid found) (hf : (f a).Gives mid c after []) :
    Gives (part >>= f) before c after found :=
  Check.Gives.first (f := fun result : α × Bindings => f result.1 result.2) h hf

theorem Gives.next (h : part.Gives before a mid []) (hf : (f a).Gives mid c after found) :
    Gives (part >>= f) before c after found :=
  Check.Gives.next (f := fun result : α × Bindings => f result.1 result.2) h hf

theorem Gives.within {part : Walk μ α} (h : part.Gives before a after found) (rebuild : μ → ν) :
    Gives (within rebuild part) before a after found :=
  Check.Gives.within h rebuild

theorem oblivious_pure : Oblivious (pure a : Walk ν α) := fun _ => Check.oblivious_pure

theorem oblivious_get : Oblivious (get : Walk ν Bindings) := fun _ => Check.oblivious_pure

theorem oblivious_set : Oblivious (set b : Walk ν PUnit) := fun _ => Check.oblivious_pure

theorem oblivious_onScope {g : Scope → Scope} : Oblivious (onScope g : Walk ν Unit) :=
  fun _ => Check.oblivious_pure

theorem oblivious_lift {part : Check ν α} (h : part.Oblivious) :
    Oblivious (liftM part : Walk ν α) :=
  fun _ => h.bind fun _ => Check.oblivious_pure

theorem oblivious_report : Oblivious (report found : Walk ν Unit) :=
  oblivious_lift Check.oblivious_report

theorem Oblivious.bind (h : part.Oblivious) (hf : ∀ a, (f a).Oblivious) :
    Oblivious (part >>= f) :=
  fun b => (h b).bind fun result => hf result.1 result.2

theorem Oblivious.within {part : Walk μ α} (h : part.Oblivious) (rebuild : μ → ν) :
    Oblivious (within rebuild part) := fun b => (h b).within rebuild

theorem Oblivious.map {g : α → β} (h : part.Oblivious) : Oblivious (g <$> part) := by
  rw [map_eq_pure_bind]
  exact h.bind fun _ => oblivious_pure

/-- A walk that is oblivious at every node is so on a list of them. -/
theorem oblivious_each {walk : ν → Walk ν ν} (h : ∀ node, (walk node).Oblivious) :
    (nodes : List ν) → (each walk nodes).Oblivious
  | [] => oblivious_pure
  | node :: rest => by
    have hrest := oblivious_each h rest
    refine ((h node).within _).bind fun _ => ?_
    refine (hrest.within _).bind fun _ => ?_
    exact oblivious_pure

/-- A sequence of walks that reports nothing consists of walks that report nothing. -/
theorem Gives.of_bind (h : Gives (part >>= f) before c after []) (hpart : part.Oblivious)
    (hf : ∀ a, (f a).Oblivious) :
    ∃ a mid, part.Gives before a mid [] ∧ (f a).Gives mid c after [] := by
  obtain ⟨⟨a, mid⟩, hfirst, hrest⟩ :=
    Check.Gives.of_bind (f := fun result : α × Bindings => f result.1 result.2) h (hpart before)
      fun result => hf result.1 result.2
  exact ⟨a, mid, hfirst, hrest⟩

theorem Gives.of_within {part : Walk μ α} {rebuild : μ → ν}
    (h : (Walk.within rebuild part).Gives before a after found) : part.Gives before a after found :=
  Check.Gives.of_within h

theorem Gives.of_pure {a' : α} (h : (pure a' : Walk ν α).Gives before a after []) :
    a = a' ∧ after = before := by
  obtain ⟨rfl, rfl⟩ := Prod.mk.inj (Check.Gives.of_pure h)
  exact ⟨rfl, rfl⟩

theorem Gives.of_report {u : Unit} (h : (report found : Walk ν Unit).Gives before u after []) :
    found = [] ∧ after = before := by
  obtain ⟨hresult, hfound⟩ := Check.Gives.unique h (gives_lift (b := before) Check.gives_report)
  exact ⟨hfound, (Prod.mk.inj hresult).2.symm⟩

theorem Gives.of_onScope {g : Scope → Scope} {u : Unit}
    (h : (onScope g : Walk ν Unit).Gives before u after []) :
    after = { before with scope := g before.scope } :=
  (Prod.mk.inj (Check.Gives.unique h gives_onScope).1).2.symm

end Walk

open Check Walk

theorem Reference.check_oblivious {ν : Type} (env : Env) (rebuild : Reference → ν)
    (target : Reference) : (target.check env rebuild).Oblivious := by
  unfold check
  cases target.analyze env with
  | ok found => exact Check.oblivious_pure
  | error found => exact Check.oblivious_abort

theorem Typing.checkCall_oblivious {env : Env} {span : Span} {callee : Reference} {args : List Expr}
    {checkArgs : Check (List Expr) (List (Expr × Ty))} (hargs : checkArgs.Oblivious) :
    (checkCall env span callee args checkArgs).Oblivious := by
  refine (callee.check_oblivious env _).bind fun _ => ?_
  refine (hargs.within _).bind fun _ => ?_
  exact oblivious_concluded

namespace Expr

mutual

/-- By the cases of the expression, each part in its turn. -/
theorem analyze_oblivious (env : Env) : (expr : Expr) → (analyze env expr).Oblivious
  | int .. | bool .. | null .. => Check.oblivious_pure
  | unary _ _ operand => by
    have hoperand := analyze_oblivious env operand
    refine (hoperand.within _).bind fun _ => ?_
    exact oblivious_concluded
  | binary _ _ left right => by
    have hleft := analyze_oblivious env left
    have hright := analyze_oblivious env right
    refine (hleft.within _).bind fun _ => ?_
    refine (hright.within _).bind fun _ => ?_
    exact oblivious_concluded
  | ternary _ cond onTrue onFalse => by
    have hcond := analyze_oblivious env cond
    have hTrue := analyze_oblivious env onTrue
    have hFalse := analyze_oblivious env onFalse
    refine (hcond.within _).bind fun _ => ?_
    refine Check.oblivious_report.bind fun _ => ?_
    refine (hTrue.within _).bind fun _ => ?_
    refine (hFalse.within _).bind fun _ => ?_
    exact oblivious_concluded
  | ref _ target => by
    refine (target.check_oblivious env _).bind fun _ => ?_
    exact oblivious_concluded
  | index _ target subscript => by
    have hsubscript := analyze_oblivious env subscript
    refine (target.check_oblivious env _).bind fun _ => ?_
    refine (hsubscript.within _).bind fun _ => ?_
    refine oblivious_conclude.bind fun _ => ?_
    exact oblivious_reported
  | call _ _ args => by
    have hargs := analyzeAll_oblivious env args
    refine ((Typing.checkCall_oblivious hargs).within _).bind fun _ => ?_
    exact Check.oblivious_pure
  | newObject annot cls => by
    unfold analyze
    cases env.scope.class? cls.name with
    | none => exact Check.oblivious_abort
    | some symbol => exact Check.oblivious_pure
  | newArray _ _ size => by
    have hsize := analyze_oblivious env size
    refine Check.oblivious_orAbort.bind fun _ => ?_
    refine (hsize.within _).bind fun _ => ?_
    exact oblivious_reported

theorem analyzeAll_oblivious (env : Env) : (exprs : List Expr) → (analyzeAll env exprs).Oblivious
  | [] => Check.oblivious_pure
  | expr :: rest => by
    have hexpr := analyze_oblivious env expr
    have hrest := analyzeAll_oblivious env rest
    refine (hexpr.within _).bind fun _ => ?_
    refine (hrest.within _).bind fun _ => ?_
    exact Check.oblivious_pure

end

theorem checkCondition_oblivious (construct : String) (cond : Expr) (env : Env) :
    (cond.checkCondition construct env).Oblivious := by
  refine (analyze_oblivious env cond).bind fun _ => ?_
  exact oblivious_reported

end Expr

theorem Walk.oblivious_inEnv {method : MethodContext} {part : Env → Check ν α}
    (h : ∀ env, (part env).Oblivious) : (inEnv method part).Oblivious :=
  oblivious_get.bind fun _ => oblivious_lift (h _)

namespace Stmt

theorem analyzeVarDecl_oblivious (method : MethodContext) (span : Span) (var : LocalDef)
    (init : Expr) : (analyzeVarDecl method span var init).Oblivious := by
  refine oblivious_get.bind fun _ => ?_
  refine (oblivious_lift Check.oblivious_orAbort).bind fun _ => ?_
  refine (oblivious_lift Check.oblivious_orAbort).bind fun _ => ?_
  refine oblivious_set.bind fun _ => ?_
  refine (oblivious_lift ((init.analyze_oblivious _).within _)).bind fun _ => ?_
  refine Walk.oblivious_report.bind fun _ => ?_
  exact Walk.oblivious_pure

theorem analyzeAssign_oblivious (span : Span) (target : Reference) (value : Expr) (env : Env) :
    (analyzeAssign span target value env).Oblivious := by
  have hvalue := value.analyze_oblivious env
  refine (target.check_oblivious env _).bind fun _ => ?_
  refine (hvalue.within _).bind fun _ => ?_
  exact oblivious_reported

theorem analyzeIndexAssign_oblivious (span : Span) (target : Reference) (subscript value : Expr)
    (env : Env) : (analyzeIndexAssign span target subscript value env).Oblivious := by
  have hsubscript := subscript.analyze_oblivious env
  have hvalue := value.analyze_oblivious env
  refine (target.check_oblivious env _).bind fun _ => ?_
  refine (hsubscript.within _).bind fun _ => ?_
  refine (hvalue.within _).bind fun _ => ?_
  refine oblivious_conclude.bind fun _ => ?_
  refine Check.oblivious_report.bind fun _ => ?_
  exact oblivious_reported

theorem analyzeCall_oblivious (span : Span) (callee : Reference) (args : List Expr) (env : Env) :
    (analyzeCall span callee args env).Oblivious := by
  have hargs := Expr.analyzeAll_oblivious env args
  refine ((Typing.checkCall_oblivious hargs).within _).bind fun _ => ?_
  exact Check.oblivious_pure

theorem analyzeReturn_oblivious (span : Span) (value : Option Expr) (env : Env) :
    (analyzeReturn span value env).Oblivious := by
  cases value with
  | none => exact oblivious_reported
  | some value =>
    refine ((value.analyze_oblivious env).within _).bind fun _ => ?_
    exact oblivious_reported

theorem analyzeBranch_oblivious {stmt : Stmt} {analysis : Walk Stmt Stmt} (h : analysis.Oblivious) :
    (analyzeBranch stmt analysis).Oblivious := by
  refine Walk.oblivious_report.bind fun _ => ?_
  refine oblivious_onScope.bind fun _ => ?_
  refine h.bind fun _ => ?_
  refine oblivious_onScope.bind fun _ => ?_
  exact Walk.oblivious_pure

mutual

/-- By the cases of the statement, each part in its turn. -/
theorem analyze_oblivious (method : MethodContext) : (stmt : Stmt) → (analyze method stmt).Oblivious
  | block _ stmts => by
    have hstmts := analyzeAll_oblivious method stmts
    refine oblivious_onScope.bind fun _ => ?_
    refine (hstmts.within _).bind fun _ => ?_
    refine oblivious_onScope.bind fun _ => ?_
    exact Walk.oblivious_pure
  | varDecl span var init => analyzeVarDecl_oblivious method span var init
  | assign span target value => oblivious_inEnv (analyzeAssign_oblivious span target value)
  | indexAssign span target subscript value =>
    oblivious_inEnv (analyzeIndexAssign_oblivious span target subscript value)
  | call span callee args => oblivious_inEnv (analyzeCall_oblivious span callee args)
  | .return span value => oblivious_inEnv (analyzeReturn_oblivious span value)
  | ifElse _ cond onTrue none => by
    have hTrue := analyze_oblivious method onTrue
    refine ((oblivious_inEnv (cond.checkCondition_oblivious "if")).within _).bind fun _ => ?_
    refine ((analyzeBranch_oblivious hTrue).within _).bind fun _ => ?_
    exact Walk.oblivious_pure
  | ifElse _ cond onTrue (some onFalse) => by
    have hTrue := analyze_oblivious method onTrue
    have hFalse := analyze_oblivious method onFalse
    refine ((oblivious_inEnv (cond.checkCondition_oblivious "if")).within _).bind fun _ => ?_
    refine ((analyzeBranch_oblivious hTrue).within _).bind fun _ => ?_
    refine ((analyzeBranch_oblivious hFalse).within _).bind fun _ => ?_
    exact Walk.oblivious_pure
  | .while _ cond body => by
    have hbody := analyze_oblivious method body
    refine ((oblivious_inEnv (cond.checkCondition_oblivious "while")).within _).bind fun _ => ?_
    refine ((analyzeBranch_oblivious hbody).within _).bind fun _ => ?_
    exact Walk.oblivious_pure
  | .for _ init cond update body => by
    have hinit := analyzeOption_oblivious method init
    have hupdate := analyzeOption_oblivious method update
    have hbody := analyze_oblivious method body
    refine oblivious_onScope.bind fun _ => ?_
    refine (hinit.within _).bind fun _ => ?_
    refine (Walk.Oblivious.within ?_ _).bind fun _ => ?_
    · cases cond with
      | none => exact Walk.oblivious_pure
      | some cond => exact ((oblivious_inEnv (cond.checkCondition_oblivious "for")).within _).map
    refine (hupdate.within _).bind fun _ => ?_
    refine ((analyzeBranch_oblivious hbody).within _).bind fun _ => ?_
    refine oblivious_onScope.bind fun _ => ?_
    exact Walk.oblivious_pure

theorem analyzeOption_oblivious (method : MethodContext) :
    (stmt : Option Stmt) → (analyzeOption method stmt).Oblivious
  | none => Walk.oblivious_pure
  | some stmt => ((analyze_oblivious method stmt).within _).map

theorem analyzeAll_oblivious (method : MethodContext) :
    (stmts : List Stmt) → (analyzeAll method stmts).Oblivious
  | [] => Walk.oblivious_pure
  | stmt :: rest => by
    have hstmt := analyze_oblivious method stmt
    have hrest := analyzeAll_oblivious method rest
    refine (hstmt.within _).bind fun _ => ?_
    refine (hrest.within _).bind fun _ => ?_
    exact Walk.oblivious_pure

end

end Stmt

theorem ParamDef.enter_oblivious (param : ParamDef) : param.enter.Oblivious := by
  refine oblivious_get.bind fun bindings => ?_
  cases param.binding with
  | none => exact Walk.oblivious_pure
  | some symbol =>
    refine (oblivious_lift Check.oblivious_orAbort).bind fun _ => ?_
    refine oblivious_set.bind fun _ => ?_
    exact Walk.oblivious_pure

/-- The analysis of a method does not look at what was reported before it. -/
theorem MethodDef.analyze_oblivious (cls : SymbolId) (method : MethodDef) :
    (method.analyze cls).Oblivious := by
  have hparams := oblivious_each ParamDef.enter_oblivious method.params
  unfold analyze
  cases method.binding with
  | none => exact Walk.oblivious_pure
  | some symbol =>
    refine oblivious_onScope.bind fun _ => ?_
    refine (hparams.within _).bind fun _ => ?_
    refine oblivious_get.bind fun _ => ?_
    refine ((Stmt.analyzeAll_oblivious _ method.body).within _).bind fun _ => ?_
    refine Walk.oblivious_report.bind fun _ => ?_
    exact Walk.oblivious_pure

theorem ClassDef.analyze_oblivious (cls : ClassDef) : cls.analyze.Oblivious := by
  unfold analyze
  cases cls.binding with
  | none => exact Walk.oblivious_pure
  | some symbol =>
    have hmethods := oblivious_each (MethodDef.analyze_oblivious symbol) cls.methods
    refine oblivious_get.bind fun _ => ?_
    refine oblivious_onScope.bind fun _ => ?_
    refine (hmethods.within _).bind fun _ => ?_
    exact Walk.oblivious_pure

end SmallJava
