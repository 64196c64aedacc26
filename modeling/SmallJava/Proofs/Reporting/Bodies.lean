import SmallJava.Proofs.Reporting.Parts
import SmallJava.Proofs.Reporting.Reports
import SmallJava.Proofs.Typing.Rules

/-! What analysis reports about bodies, and what it records in them. -/

namespace SmallJava

/-- Every step of the path has a type, and every name in it is bound. -/
structure Reference.Recorded (target : Reference) : Prop where
  typed : ∀ path ∈ target.paths, path.annot.ty.isSome
  bound : ∀ path ∈ target.paths, ∀ name ∈ path.lastName?, name.binding.isSome

/-- The expression has a type, and the names that it starts with are bound. -/
structure Expr.Recorded (expr : Expr) : Prop where
  typed : expr.annot.ty.isSome
  path : ∀ target ∈ expr.path?, target.Recorded
  cls : ∀ cls ∈ expr.className?, cls.binding.isSome

/-- The expressions, paths and names that stand in the statement, but not in a statement in it,
are typed and bound. -/
structure Stmt.Recorded (stmt : Stmt) : Prop where
  exprs : ∀ expr ∈ stmt.own, ∀ e ∈ expr.exprs, e.Recorded
  path : ∀ target ∈ stmt.path?, target.Recorded
  var : ∀ var ∈ stmt.var?, var.binding.isSome

/-- Of a type that comparisons can tell from others. -/
def Expr.Supported (expr : Expr) : Prop := expr.annot.ty ≠ some .unsupported

/-- The expressions that stand in the statement, but not in a statement in it, are supported. -/
def Stmt.Supported (stmt : Stmt) : Prop := ∀ expr ∈ stmt.own, ∀ e ∈ expr.exprs, e.Supported

/-- Only supported types agree. -/
theorem Ty.supported_of_agrees {left right : Ty} (h : left.agrees right = true) :
    left ≠ .unsupported ∧ right ≠ .unsupported := by
  refine ⟨?_, ?_⟩
  · rintro rfl
    simp [agrees] at h
  · rintro rfl
    cases left <;> simp [agrees] at h

namespace Typing

variable {table : SymbolTable} {τ τ' : Ty} {span : Span}

/-- A unary operator on an operand of the unsupported type is reported. -/
theorem unary_supported {op : UnaryOp} (h : (unary op τ span).2 = []) : τ ≠ .unsupported := by
  unfold unary at h
  cases hresult : op.result? τ with
  | none => simp [hresult] at h
  | some ty =>
    unfold UnaryOp.result? at hresult
    cases op with
    | not => exact (Ty.supported_of_agrees (Option.ite_none_right_eq_some.1 hresult).1).1
    | neg => exact (Ty.supported_of_agrees (Option.ite_none_right_eq_some.1 hresult).1).1

/-- An operator on an operand of the unsupported type is reported. -/
theorem binary_supported {op : BinaryOp} (h : (binary op τ τ' span).2 = []) :
    τ ≠ .unsupported ∧ τ' ≠ .unsupported := by
  unfold binary at h
  cases hresult : op.result? τ τ' with
  | none => simp [hresult] at h
  | some ty =>
    unfold BinaryOp.result? at hresult
    cases hfamily : op.family with
    | equality =>
      simp only [hfamily] at hresult
      obtain ⟨-, hagrees⟩ := Bool.and_eq_true_iff.1 (Option.ite_none_right_eq_some.1 hresult).1
      exact Ty.supported_of_agrees hagrees
    | _ =>
      simp only [hfamily] at hresult
      obtain ⟨hleft, hright⟩ := Bool.and_eq_true_iff.1 (Option.ite_none_right_eq_some.1 hresult).1
      exact ⟨(Ty.supported_of_agrees hleft).1, (Ty.supported_of_agrees hright).1⟩

theorem required_supported {role : String} (h : required table role τ τ' span = []) :
    τ' ≠ .unsupported := (Ty.supported_of_agrees (agrees_of_required h)).1

theorem ternary_supported (h : (ternary table τ τ' span).2 = []) :
    τ ≠ .unsupported ∧ τ' ≠ .unsupported := by
  unfold ternary at h
  cases hagrees : τ.agrees τ' with
  | false => simp [hagrees] at h
  | true => exact Ty.supported_of_agrees hagrees

/-- An argument of the unsupported type is reported. -/
theorem arguments_supported {method : String} {position : Nat} {params : List SymbolId}
    {args : List (Expr × Ty)} (hlength : params.length = args.length)
    (h : arguments table method position params args = []) : ∀ arg ∈ args, arg.2 ≠ .unsupported := by
  induction params generalizing position args with
  | nil =>
    obtain rfl := List.length_eq_zero_iff.1 hlength.symm
    exact List.forall_mem_nil _
  | cons param params ih =>
    cases args with
    | nil => cases hlength
    | cons arg args =>
      unfold arguments at h
      dsimp only at h
      cases hagrees : (table.typeOf param).agrees arg.2 with
      | false => simp [hagrees] at h
      | true =>
        rw [hagrees, if_pos rfl] at h
        exact List.forall_mem_cons.2
          ⟨(Ty.supported_of_agrees hagrees).2, ih (Nat.succ.inj hlength) h⟩

/-- A call with an argument of the unsupported type is reported. -/
theorem call_supported {callee : Reference} {args : List (Expr × Ty)}
    (h : (call table callee args span).2 = []) : ∀ arg ∈ args, arg.2 ≠ .unsupported := by
  unfold call at h
  split at h
  next =>
    split at h
    next =>
      dsimp only at h
      split at h
      next hlength => exact arguments_supported hlength h
      next => simp at h
    next => simp at h
  next => simp at h

theorem initial_supported {name : String} (h : initial table name τ τ' span = []) :
    τ' ≠ .unsupported := by
  unfold initial at h
  cases hagrees : τ.agrees τ' with
  | false => simp [hagrees] at h
  | true => exact (Ty.supported_of_agrees hagrees).2

/-- A value of the unsupported type is reported. -/
theorem assignment_supported {target : Reference} (h : assignment table target τ τ' span = []) :
    τ' ≠ .unsupported := by
  unfold assignment at h
  split at h
  next => cases h
  next =>
    cases hagrees : τ.agrees τ' with
    | false => simp [hagrees] at h
    | true => exact (Ty.supported_of_agrees hagrees).2

theorem stored_supported (h : stored table τ τ' span = []) : τ' ≠ .unsupported := by
  unfold stored at h
  cases hagrees : τ.agrees τ' with
  | false => simp [hagrees] at h
  | true => exact (Ty.supported_of_agrees hagrees).2

/-- A result of the unsupported type is reported. -/
theorem returned_supported (h : returned table τ (some τ') span = []) : τ' ≠ .unsupported := by
  unfold returned at h
  dsimp only at h
  split at h
  next => cases h
  next =>
    cases hagrees : τ.agrees τ' with
    | false => simp [hagrees] at h
    | true => exact (Ty.supported_of_agrees hagrees).2

end Typing

/-- A path that is analysed is typed and bound at each of its steps. -/
theorem Reference.recorded_of_analyze {env : Env} {target target' : Reference} {ty : Ty}
    (h : target.analyze env = .ok (target', ty)) : target'.Recorded := by
  induction target generalizing target' ty with
  | this annot =>
    unfold analyze at h
    split at h
    next => cases h
    next =>
      cases h
      refine ⟨List.forall_mem_singleton.2 rfl, List.forall_mem_singleton.2 ?_⟩
      rintro _ ⟨⟩
  | ident annot name =>
    unfold analyze at h
    split at h
    next => cases h
    next symbol _ =>
      cases h
      refine ⟨List.forall_mem_singleton.2 rfl, List.forall_mem_singleton.2 ?_⟩
      rintro _ ⟨⟩
      rfl
  | member annot owner name ih =>
    unfold analyze at h
    split at h
    next => cases h
    next owner' ownerTy howner =>
      split at h
      next => cases h
      next symbol _ =>
        cases h
        obtain ⟨htyped, hbound⟩ := ih howner
        refine ⟨List.forall_mem_cons.2 ⟨rfl, htyped⟩, List.forall_mem_cons.2 ⟨?_, hbound⟩⟩
        rintro _ ⟨⟩
        rfl

open Check

theorem Reference.check_reports {ν : Type} (env : Env) (rebuild : Reference → ν)
    (target : Reference) : (target.check env rebuild).Reports (fun found => found.1.Recorded)
      fun _ => True := by
  unfold Reference.check
  cases hfound : target.analyze env with
  | ok found => exact reports_pure (recorded_of_analyze hfound) trivial
  | error left => exact reports_abort (target.cutsShort_analyze env hfound)

namespace Expr

/-- The expression has the type that is found for it, and it and all in it are typed and bound. -/
structure Found (found : Expr × Ty) : Prop where
  typed : found.1.annot.ty = some found.2
  recorded : ∀ e ∈ found.1.exprs, e.Recorded

/-- All that is compared with other types when the expression is analysed. -/
def InnerSupported (found : Expr × Ty) : Prop := ∀ e ∈ found.1.inner, e.Supported

theorem Found.supported {found : Expr × Ty} (h : Found found) (hinner : InnerSupported found)
    (hty : found.2 ≠ .unsupported) : ∀ e ∈ found.1.exprs, e.Supported := by
  refine List.forall_mem_cons.2 ⟨?_, hinner⟩
  rw [Supported, h.typed]
  exact fun heq => hty (Option.some.inj heq)

theorem mem_allExprs {e : Expr} {exprs : List Expr} :
    e ∈ allExprs exprs ↔ ∃ expr ∈ exprs, e ∈ expr.exprs := by
  induction exprs with
  | nil => simp [allExprs]
  | cons expr rest ih => simp [allExprs, ih, Expr.exprs, or_assoc]

end Expr

/-- A call records its path and its arguments, and reports what is unsupported in them. -/
theorem Typing.checkCall_reports (env : Env) (span : Span) (callee : Reference) (args : List Expr)
    {checkArgs : Check (List Expr) (List (Expr × Ty))}
    (hargs : checkArgs.Reports (fun found => ∀ arg ∈ found, Expr.Found arg)
      fun found => ∀ arg ∈ found, Expr.InnerSupported arg) :
    (checkCall env span callee args checkArgs).Reports
      (fun found => found.1.Recorded ∧ ∀ arg ∈ found.2.1, ∀ e ∈ arg.exprs, e.Recorded)
      fun found => ∀ arg ∈ found.2.1, ∀ e ∈ arg.exprs, e.Supported := by
  refine (callee.check_reports env _).bind fun ⟨callee', _⟩ hcallee => ?_
  refine (hargs.within _).bind fun args' hargs' => ?_
  refine (reports_conclude Typing.allTyping_call).bind fun ty _ => ?_
  refine reports_pure ⟨hcallee, ?_⟩ ?_
  · exact List.forall_mem_map.2 fun arg hmem => (hargs' arg hmem).recorded
  · intro hclean hinner _
    exact List.forall_mem_map.2 fun arg hmem =>
      (hargs' arg hmem).supported (hinner arg hmem) (call_supported hclean arg hmem)

namespace Expr

open Typing

mutual

/-- Analysis of an expression types all its parts and binds all names in it. If it reports
nothing, no part of the expression is unsupported. -/
theorem analyze_reports (env : Env) : (expr : Expr) →
    (analyze env expr).Reports Found InnerSupported
  | int annot value => by
    refine reports_pure ⟨rfl, List.forall_mem_singleton.2 ⟨rfl, nofun, nofun⟩⟩ ?_
    exact List.forall_mem_nil _
  | bool annot value => by
    refine reports_pure ⟨rfl, List.forall_mem_singleton.2 ⟨rfl, nofun, nofun⟩⟩ ?_
    exact List.forall_mem_nil _
  | null annot => by
    refine reports_pure ⟨rfl, List.forall_mem_singleton.2 ⟨rfl, nofun, nofun⟩⟩ ?_
    exact List.forall_mem_nil _
  | unary annot op operand => by
    refine ((analyze_reports env operand).within _).bind fun ⟨operand', τ⟩ hoperand => ?_
    refine (reports_conclude allTyping_unary).bind fun ty _ => ?_
    refine reports_pure ⟨rfl, List.forall_mem_cons.2 ⟨⟨rfl, nofun, nofun⟩, hoperand.recorded⟩⟩ ?_
    exact fun hclean hinner => hoperand.supported hinner (unary_supported hclean)
  | binary annot op left right => by
    refine ((analyze_reports env left).within _).bind fun ⟨left', τ⟩ hleft => ?_
    refine ((analyze_reports env right).within _).bind fun ⟨right', τ'⟩ hright => ?_
    refine (reports_conclude allTyping_binary).bind fun ty _ => ?_
    refine reports_pure ⟨rfl, List.forall_mem_cons.2 ⟨⟨rfl, nofun, nofun⟩,
      List.forall_mem_append.2 ⟨hleft.recorded, hright.recorded⟩⟩⟩ ?_
    intro hclean hinnerRight hinnerLeft
    obtain ⟨hτ, hτ'⟩ := binary_supported hclean
    exact List.forall_mem_append.2
      ⟨hleft.supported hinnerLeft hτ, hright.supported hinnerRight hτ'⟩
  | ternary annot cond onTrue onFalse => by
    refine ((analyze_reports env cond).within _).bind fun ⟨cond', condTy⟩ hcond => ?_
    refine (reports_report allTyping_required).bind fun _ _ => ?_
    refine ((analyze_reports env onTrue).within _).bind fun ⟨onTrue', τ⟩ hTrue => ?_
    refine ((analyze_reports env onFalse).within _).bind fun ⟨onFalse', τ'⟩ hFalse => ?_
    refine (reports_conclude allTyping_ternary).bind fun ty _ => ?_
    refine reports_pure ⟨rfl, List.forall_mem_cons.2 ⟨⟨rfl, nofun, nofun⟩,
      List.forall_mem_append.2 ⟨List.forall_mem_append.2 ⟨hcond.recorded, hTrue.recorded⟩,
        hFalse.recorded⟩⟩⟩ ?_
    intro hclean hinnerFalse hinnerTrue hrequired hinnerCond
    obtain ⟨hτ, hτ'⟩ := ternary_supported hclean
    exact List.forall_mem_append.2 ⟨List.forall_mem_append.2
      ⟨hcond.supported hinnerCond (required_supported hrequired),
        hTrue.supported hinnerTrue hτ⟩, hFalse.supported hinnerFalse hτ'⟩
  | ref annot target => by
    refine (target.check_reports env _).bind fun ⟨target', targetTy⟩ htarget => ?_
    refine (reports_conclude allTyping_value).bind fun ty _ => ?_
    refine reports_pure ⟨rfl, List.forall_mem_singleton.2 ⟨rfl, ?_, nofun⟩⟩ fun _ _ => ?_
    · rintro _ ⟨⟩
      exact htarget
    · exact List.forall_mem_nil _
  | index annot target subscript => by
    refine (target.check_reports env _).bind fun ⟨target', targetTy⟩ htarget => ?_
    refine ((analyze_reports env subscript).within _).bind fun ⟨subscript', subscriptTy⟩ hsub => ?_
    refine (reports_conclude allTyping_element).bind fun ty _ => ?_
    refine (reports_report allTyping_required).bind fun _ _ => ?_
    refine reports_pure ⟨rfl, List.forall_mem_cons.2 ⟨⟨rfl, ?_, nofun⟩, hsub.recorded⟩⟩ ?_
    · rintro _ ⟨⟩
      exact htarget
    · exact fun hrequired _ hinner _ => hsub.supported hinner (required_supported hrequired)
  | call annot callee args => by
    refine ((checkCall_reports env _ callee args (analyzeAll_reports env args)).within _).bind
      fun ⟨callee', args', ty⟩ ⟨hcallee, hargs⟩ => ?_
    refine reports_pure ⟨rfl, List.forall_mem_cons.2 ⟨⟨rfl, ?_, nofun⟩, fun e hmem => ?_⟩⟩
      fun hsupported e hmem => ?_
    · rintro _ ⟨⟩
      exact hcallee
    · obtain ⟨arg, harg, he⟩ := mem_allExprs.1 hmem
      exact hargs arg harg e he
    · obtain ⟨arg, harg, he⟩ := mem_allExprs.1 hmem
      exact hsupported arg harg e he
  | newObject annot cls => by
    unfold analyze
    split
    next => exact reports_abort ⟨rfl, nofun⟩
    next symbol _ =>
      refine reports_pure ⟨rfl, List.forall_mem_singleton.2 ⟨rfl, nofun, ?_⟩⟩ ?_
      · rintro _ ⟨⟩
        rfl
      · exact List.forall_mem_nil _
  | newArray annot elem size => by
    refine (reports_orAbort (elem.cutsShort_resolve _ _)).bind fun elemTy _ => ?_
    refine ((analyze_reports env size).within _).bind fun ⟨size', sizeTy⟩ hsize => ?_
    refine (reports_report allTyping_required).bind fun _ _ => ?_
    refine reports_pure ⟨rfl, List.forall_mem_cons.2 ⟨⟨rfl, nofun, nofun⟩, hsize.recorded⟩⟩ ?_
    exact fun hrequired hinner _ => hsize.supported hinner (required_supported hrequired)

/-- The arguments of a call are recorded one after the other. -/
theorem analyzeAll_reports (env : Env) : (args : List Expr) →
    (analyzeAll env args).Reports (fun found => ∀ arg ∈ found, Found arg)
      fun found => ∀ arg ∈ found, InnerSupported arg
  | [] => reports_pure (List.forall_mem_nil _) (List.forall_mem_nil _)
  | arg :: rest => by
    refine ((analyze_reports env arg).within _).bind fun arg' harg => ?_
    refine ((analyzeAll_reports env rest).within _).bind fun rest' hrest => ?_
    refine reports_pure (List.forall_mem_cons.2 ⟨harg, hrest⟩) ?_
    exact fun hinnerRest hinner => List.forall_mem_cons.2 ⟨hinner, hinnerRest⟩

end

end Expr

/-- The parts of a condition are typed and bound. -/
theorem Expr.checkCondition_reports (construct : String) (cond : Expr) (env : Env) :
    (cond.checkCondition construct env).Reports (fun cond' => ∀ e ∈ cond'.exprs, e.Recorded)
      fun cond' => ∀ e ∈ cond'.exprs, e.Supported := by
  refine (cond.analyze_reports env).bind fun ⟨cond', ty⟩ hcond => ?_
  refine (reports_report Typing.allTyping_required).bind fun _ _ => ?_
  refine reports_pure hcond.recorded fun hrequired hinner => ?_
  exact hcond.supported hinner (Typing.required_supported hrequired)

open Walk

theorem Walk.reports_inEnv {ν α : Type} {method : MethodContext} {part : Env → Check ν α}
    {R S : α → Prop} (hpart : ∀ env, (part env).Reports R S) :
    (inEnv method part).Reports R S :=
  reports_get.after fun _ => reports_lift (hpart _)

namespace Stmt

open Typing

/-- The statement and all statements in it are recorded. -/
def AllRecorded (stmt : Stmt) : Prop := ∀ s ∈ stmt.stmts, s.Recorded

/-- The statement and all statements in it are supported. -/
def AllSupported (stmt : Stmt) : Prop := ∀ s ∈ stmt.stmts, s.Supported

/-- A declaration statement is recorded with its initial value. -/
theorem analyzeVarDecl_reports (method : MethodContext) (span : Span) (var : LocalDef)
    (init : Expr) :
    (analyzeVarDecl method span var init).Reports AllRecorded AllSupported := by
  refine reports_get.after fun bindings => ?_
  refine (Walk.reports_orAbort (var.type.cutsShort_resolve _ _)).after fun ty => ?_
  refine (Walk.reports_orAbort (bindings.scope.cutsShort_declareLocal _ _ _)).after fun scope => ?_
  refine reports_set.after fun _ => ?_
  refine (reports_lift ((init.analyze_reports _).within _)).bind fun ⟨init', initTy⟩ hinit => ?_
  refine (Walk.reports_report allTyping_initial).bind fun _ _ => ?_
  refine Walk.reports_pure (List.forall_mem_singleton.2 ⟨?_, nofun, ?_⟩) fun hclean hinner => ?_
  · exact List.forall_mem_singleton.2 hinit.recorded
  · rintro _ ⟨⟩
    rfl
  · exact List.forall_mem_singleton.2
      (List.forall_mem_singleton.2 (hinit.supported hinner (initial_supported hclean)))

/-- An assignment is recorded with its target and its value. -/
theorem analyzeAssign_reports (span : Span) (target : Reference) (value : Expr) (env : Env) :
    (analyzeAssign span target value env).Reports AllRecorded AllSupported := by
  refine (target.check_reports env _).bind fun ⟨target', targetTy⟩ htarget => ?_
  refine ((value.analyze_reports env).within _).bind fun ⟨value', valueTy⟩ hvalue => ?_
  refine (Check.reports_report allTyping_assignment).bind fun _ _ => ?_
  refine Check.reports_pure (List.forall_mem_singleton.2 ⟨?_, ?_, nofun⟩) fun hclean hinner _ => ?_
  · exact List.forall_mem_singleton.2 hvalue.recorded
  · rintro _ ⟨⟩
    exact htarget
  · exact List.forall_mem_singleton.2
      (List.forall_mem_singleton.2 (hvalue.supported hinner (assignment_supported hclean)))

/-- An assignment to an array element is recorded with the array, the index and the value. -/
theorem analyzeIndexAssign_reports (span : Span) (target : Reference) (subscript value : Expr)
    (env : Env) :
    (analyzeIndexAssign span target subscript value env).Reports AllRecorded AllSupported := by
  refine (target.check_reports env _).bind fun ⟨target', targetTy⟩ htarget => ?_
  refine ((subscript.analyze_reports env).within _).bind fun ⟨subscript', subscriptTy⟩ hsub => ?_
  refine ((value.analyze_reports env).within _).bind fun ⟨value', valueTy⟩ hvalue => ?_
  refine (reports_conclude allTyping_element).bind fun elem _ => ?_
  refine (Check.reports_report allTyping_required).bind fun _ _ => ?_
  refine (Check.reports_report allTyping_stored).bind fun _ _ => ?_
  refine Check.reports_pure (List.forall_mem_singleton.2 ⟨?_, ?_, nofun⟩) ?_
  · exact List.forall_mem_cons.2
      ⟨hsub.recorded, List.forall_mem_singleton.2 hvalue.recorded⟩
  · rintro _ ⟨⟩
    exact htarget
  · intro hstored hrequired _ hinnerValue hinnerSub _
    refine List.forall_mem_singleton.2 (List.forall_mem_cons.2 ⟨?_, List.forall_mem_singleton.2 ?_⟩)
    · exact hsub.supported hinnerSub (required_supported hrequired)
    · exact hvalue.supported hinnerValue (stored_supported hstored)

/-- A call that is a statement is recorded with its arguments. -/
theorem analyzeCall_reports (span : Span) (callee : Reference) (args : List Expr) (env : Env) :
    (analyzeCall span callee args env).Reports AllRecorded AllSupported := by
  refine ((checkCall_reports env span callee args (Expr.analyzeAll_reports env args)).within _).bind
    fun ⟨callee', args', ty⟩ ⟨hcallee, hargs⟩ => ?_
  refine Check.reports_pure (List.forall_mem_singleton.2 ⟨hargs, ?_, nofun⟩) fun hsupported => ?_
  · rintro _ ⟨⟩
    exact hcallee
  · exact List.forall_mem_singleton.2 hsupported

/-- A return is recorded with its value, if it has one. -/
theorem analyzeReturn_reports (span : Span) (value : Option Expr) (env : Env) :
    (analyzeReturn span value env).Reports AllRecorded AllSupported := by
  cases value with
  | none =>
    refine (Check.reports_report allTyping_returned).bind fun _ _ => ?_
    refine Check.reports_pure (List.forall_mem_singleton.2 ⟨?_, nofun, nofun⟩) fun _ => ?_
    · exact List.forall_mem_nil _
    · exact List.forall_mem_singleton.2 (List.forall_mem_nil _)
  | some value =>
    refine ((value.analyze_reports env).within _).bind fun ⟨value', ty⟩ hvalue => ?_
    refine (Check.reports_report allTyping_returned).bind fun _ _ => ?_
    refine Check.reports_pure (List.forall_mem_singleton.2 ⟨?_, nofun, nofun⟩) fun hclean hinner => ?_
    · exact List.forall_mem_singleton.2 hvalue.recorded
    · exact List.forall_mem_singleton.2
        (List.forall_mem_singleton.2 (hvalue.supported hinner (returned_supported hclean)))

theorem analyzeBranch_reports (stmt : Stmt) {analysis : Walk Stmt Stmt}
    (h : analysis.Reports AllRecorded AllSupported) :
    (analyzeBranch stmt analysis).Reports AllRecorded AllSupported := by
  refine (Walk.reports_report allTyping_branch).bind fun _ _ => ?_
  refine Reports.weaken (reports_onScope.after fun _ => h.bind fun stmt' hstmt => ?_)
    (fun _ => id) fun _ _ hsupported _ => hsupported
  exact reports_onScope.after fun _ => Walk.reports_pure hstmt id

/-- The condition of a loop is recorded, if it has one. -/
theorem loopCond_reports (method : MethodContext) (cond : Option Expr) :
    Reports (match cond with
      | none => pure none
      | some cond => some <$> within some (inEnv method (cond.checkCondition "for")))
      (fun cond' => ∀ expr ∈ cond'.toList, ∀ e ∈ expr.exprs, e.Recorded)
      fun cond' => ∀ expr ∈ cond'.toList, ∀ e ∈ expr.exprs, e.Supported := by
  cases cond with
  | none => exact Walk.reports_pure (List.forall_mem_nil _) (List.forall_mem_nil _)
  | some cond =>
    exact ((reports_inEnv (cond.checkCondition_reports "for")).within some).map
      (fun _ hcond => List.forall_mem_singleton.2 hcond)
      fun _ _ hcond => List.forall_mem_singleton.2 hcond

mutual

/-- Analysis of a statement types all expressions in it, and binds all names and variables. If it
reports nothing, no expression in it is unsupported. -/
theorem analyze_reports (method : MethodContext) : (stmt : Stmt) →
    (analyze method stmt).Reports AllRecorded AllSupported
  | block span stmts => by
    refine reports_onScope.after fun _ => ?_
    refine ((analyzeAll_reports method stmts).within _).bind fun stmts' hstmts => ?_
    refine reports_onScope.after fun _ => Walk.reports_pure ?_ fun hsupported => ?_
    · refine List.forall_mem_cons.2 ⟨⟨List.forall_mem_nil _, nofun, nofun⟩, hstmts⟩
    · exact List.forall_mem_cons.2 ⟨List.forall_mem_nil _, hsupported⟩
  | varDecl span var init => analyzeVarDecl_reports method span var init
  | assign span target value => reports_inEnv (analyzeAssign_reports span target value)
  | indexAssign span target subscript value =>
    reports_inEnv (analyzeIndexAssign_reports span target subscript value)
  | call span callee args => reports_inEnv (analyzeCall_reports span callee args)
  | .return span value => reports_inEnv (analyzeReturn_reports span value)
  | ifElse span cond onTrue none => by
    refine ((reports_inEnv (cond.checkCondition_reports "if")).within _).bind fun cond' hcond => ?_
    refine ((analyzeBranch_reports onTrue (analyze_reports method onTrue)).within _).bind
      fun onTrue' hTrue => ?_
    refine Walk.reports_pure ?_ fun hsupported hcondSupported => ?_
    · refine List.forall_mem_cons.2 ⟨⟨List.forall_mem_singleton.2 hcond, nofun, nofun⟩, ?_⟩
      exact List.forall_mem_append.2 ⟨hTrue, List.forall_mem_nil _⟩
    · refine List.forall_mem_cons.2 ⟨List.forall_mem_singleton.2 hcondSupported, ?_⟩
      exact List.forall_mem_append.2 ⟨hsupported, List.forall_mem_nil _⟩
  | ifElse span cond onTrue (some onFalse) => by
    refine ((reports_inEnv (cond.checkCondition_reports "if")).within _).bind fun cond' hcond => ?_
    refine ((analyzeBranch_reports onTrue (analyze_reports method onTrue)).within _).bind
      fun onTrue' hTrue => ?_
    refine ((analyzeBranch_reports onFalse (analyze_reports method onFalse)).within _).bind
      fun onFalse' hFalse => ?_
    refine Walk.reports_pure ?_ fun hFalseSupported hTrueSupported hcondSupported => ?_
    · exact List.forall_mem_cons.2 ⟨⟨List.forall_mem_singleton.2 hcond, nofun, nofun⟩,
        List.forall_mem_append.2 ⟨hTrue, hFalse⟩⟩
    · exact List.forall_mem_cons.2 ⟨List.forall_mem_singleton.2 hcondSupported,
        List.forall_mem_append.2 ⟨hTrueSupported, hFalseSupported⟩⟩
  | .while span cond body => by
    refine ((reports_inEnv (cond.checkCondition_reports "while")).within _).bind
      fun cond' hcond => ?_
    refine ((analyzeBranch_reports body (analyze_reports method body)).within _).bind
      fun body' hbody => ?_
    refine Walk.reports_pure ?_ fun hbodySupported hcondSupported => ?_
    · exact List.forall_mem_cons.2 ⟨⟨List.forall_mem_singleton.2 hcond, nofun, nofun⟩, hbody⟩
    · exact List.forall_mem_cons.2 ⟨List.forall_mem_singleton.2 hcondSupported, hbodySupported⟩
  | .for span init cond update body => by
    refine reports_onScope.after fun _ => ?_
    refine ((analyzeOption_reports method init).within _).bind fun init' hinit => ?_
    refine ((loopCond_reports method cond).within _).bind fun cond' hcond => ?_
    refine ((analyzeOption_reports method update).within _).bind fun update' hupdate => ?_
    refine ((analyzeBranch_reports body (analyze_reports method body)).within _).bind
      fun body' hbody => ?_
    refine reports_onScope.after fun _ => Walk.reports_pure ?_ ?_
    · exact List.forall_mem_cons.2 ⟨⟨hcond, nofun, nofun⟩, List.forall_mem_append.2
        ⟨List.forall_mem_append.2 ⟨hinit, hupdate⟩, hbody⟩⟩
    · intro hbodySupported hupdateSupported hcondSupported hinitSupported
      exact List.forall_mem_cons.2 ⟨hcondSupported, List.forall_mem_append.2
        ⟨List.forall_mem_append.2 ⟨hinitSupported, hupdateSupported⟩, hbodySupported⟩⟩

theorem analyzeOption_reports (method : MethodContext) : (stmt : Option Stmt) →
    (analyzeOption method stmt).Reports (fun stmt' => ∀ s ∈ optionStmts stmt', s.Recorded)
      fun stmt' => ∀ s ∈ optionStmts stmt', s.Supported
  | none => Walk.reports_pure (List.forall_mem_nil _) (List.forall_mem_nil _)
  | some stmt => ((analyze_reports method stmt).within some).map (fun _ => id) fun _ _ => id

/-- Statements in a row are recorded one after the other. -/
theorem analyzeAll_reports (method : MethodContext) : (stmts : List Stmt) →
    (analyzeAll method stmts).Reports (fun stmts' => ∀ s ∈ allStmts stmts', s.Recorded)
      fun stmts' => ∀ s ∈ allStmts stmts', s.Supported
  | [] => Walk.reports_pure (List.forall_mem_nil _) (List.forall_mem_nil _)
  | stmt :: rest => by
    refine ((analyze_reports method stmt).within _).bind fun stmt' hstmt => ?_
    refine ((analyzeAll_reports method rest).within _).bind fun rest' hrest => ?_
    refine Walk.reports_pure (List.forall_mem_append.2 ⟨hstmt, hrest⟩) ?_
    exact fun hrestSupported hsupported =>
      List.forall_mem_append.2 ⟨hsupported, hrestSupported⟩

end

end Stmt

end SmallJava
