import SmallJava.Proofs.Analysis.Yields
import SmallJava.Proofs.Reporting.Bodies

/-! What analysis makes of the paths in a body. -/

namespace SmallJava

/-- The paths that stand in an expression or in a part of it have the property. -/
def Expr.AllPaths (P : Reference → Prop) (expr : Expr) : Prop :=
  ∀ e ∈ expr.exprs, ∀ target ∈ e.path?, P target

/-- The paths that stand in a statement have the property, apart from those in statements in it. -/
structure Stmt.OwnPaths (P : Reference → Prop) (stmt : Stmt) : Prop where
  path : ∀ target ∈ stmt.path?, P target
  exprs : ∀ expr ∈ stmt.own, expr.AllPaths P

/-- The paths that stand in a statement or in a part of it have the property. -/
def Stmt.AllPaths (P : Reference → Prop) (stmt : Stmt) : Prop := ∀ s ∈ stmt.stmts, s.OwnPaths P

/-- What analysis makes of a path has the property. -/
def Env.Binds (env : Env) (P : Reference → Prop) : Prop :=
  ∀ (target : Reference) {target' ty}, target.analyze env = .ok (target', ty) → P target'

section Paths

open Check

variable {P : Reference → Prop} {env : Env}

theorem Reference.check_paths {ν : Type} (h : env.Binds P) (rebuild : Reference → ν)
    (target : Reference) : (target.check env rebuild).Yields (fun found => P found.1) fun _ => True := by
  unfold check
  cases hanalyze : target.analyze env with
  | ok found => exact yields_pure (h target hanalyze)
  | error found => exact yields_abort trivial

/-- The path of a call and all paths in its arguments have the property. -/
theorem Typing.checkCall_paths (h : env.Binds P) (span : Span) (callee : Reference)
    (args : List Expr) {checkArgs : Check (List Expr) (List (Expr × Ty))}
    (hargs : checkArgs.Yields (fun found => ∀ arg ∈ found, arg.1.AllPaths P) fun _ => True) :
    (checkCall env span callee args checkArgs).Yields
      (fun found => P found.1 ∧ ∀ arg ∈ found.2.1, arg.AllPaths P) fun _ => True := by
  refine (callee.check_paths h _).bind fun _ hcallee => ?_
  refine (Yields.within hargs).bind fun _ hargs' => ?_
  exact yields_concluded fun _ _ => ⟨hcallee, List.forall_mem_map.2 hargs'⟩

namespace Expr

/-- An expression that starts with no path. -/
theorem allPaths_of_inner {expr : Expr} (hpath : expr.path? = none)
    (hinner : ∀ e ∈ expr.inner, ∀ target ∈ e.path?, P target) : expr.AllPaths P := by
  refine List.forall_mem_cons.2 ⟨?_, hinner⟩
  rw [hpath]
  exact nofun

/-- The paths of an expression are the one it starts with and those of its parts. -/
theorem allPaths_of_path {expr : Expr} {target : Reference} (hpath : expr.path? = some target)
    (htarget : P target) (hinner : ∀ e ∈ expr.inner, ∀ target ∈ e.path?, P target) :
    expr.AllPaths P := by
  refine List.forall_mem_cons.2 ⟨?_, hinner⟩
  rw [hpath]
  rintro _ ⟨⟩
  exact htarget

mutual

/-- What analysis makes of the paths of an expression has the property. -/
theorem analyze_paths (h : env.Binds P) : (expr : Expr) →
    (analyze env expr).Yields (fun found => found.1.AllPaths P) fun _ => True
  | int .. | bool .. | null .. => yields_pure (allPaths_of_inner rfl (List.forall_mem_nil _))
  | unary annot op operand => by
    have hoperand := analyze_paths h operand
    refine (Yields.within hoperand).bind fun operand' hoperand => ?_
    exact yields_concluded fun _ _ => allPaths_of_inner rfl hoperand
  | binary annot op left right => by
    have hleft := analyze_paths h left
    have hright := analyze_paths h right
    refine (Yields.within hleft).bind fun left' hleft => ?_
    refine (Yields.within hright).bind fun right' hright => ?_
    refine yields_concluded fun _ _ => allPaths_of_inner rfl ?_
    exact List.forall_mem_append.2 ⟨hleft, hright⟩
  | ternary annot cond onTrue onFalse => by
    have hcond := analyze_paths h cond
    have hTrue := analyze_paths h onTrue
    have hFalse := analyze_paths h onFalse
    refine (Yields.within hcond).bind fun cond' hcond => ?_
    refine yields_report.bind fun _ _ => ?_
    refine (Yields.within hTrue).bind fun onTrue' hTrue => ?_
    refine (Yields.within hFalse).bind fun onFalse' hFalse => ?_
    refine yields_concluded fun _ _ => allPaths_of_inner rfl ?_
    exact List.forall_mem_append.2 ⟨List.forall_mem_append.2 ⟨hcond, hTrue⟩, hFalse⟩
  | ref annot target => by
    refine (target.check_paths h _).bind fun target' htarget => ?_
    exact yields_concluded fun _ _ => allPaths_of_path rfl htarget (List.forall_mem_nil _)
  | index annot target subscript => by
    have hsubscript := analyze_paths h subscript
    refine (target.check_paths h _).bind fun target' htarget => ?_
    refine (Yields.within hsubscript).bind fun subscript' hsubscript => ?_
    refine yields_conclude.bind fun _ _ => ?_
    exact yields_reported (allPaths_of_path rfl htarget hsubscript)
  | call annot callee args => by
    have hcall := Typing.checkCall_paths h annot.span callee args (analyzeAll_paths h args)
    refine (Yields.within hcall).bind fun _ ⟨hcallee, hargs⟩ => ?_
    refine yields_pure (allPaths_of_path rfl hcallee ?_)
    intro e hmem
    obtain ⟨arg, harg, he⟩ := mem_allExprs.1 hmem
    exact hargs arg harg e he
  | newObject annot cls => by
    unfold analyze
    split
    next => exact yields_abort trivial
    next => exact yields_pure (allPaths_of_inner rfl (List.forall_mem_nil _))
  | newArray annot elem size => by
    have hsize := analyze_paths h size
    refine (yields_orAbort trivial).bind fun elemTy _ => ?_
    refine (Yields.within hsize).bind fun size' hsize => ?_
    exact yields_reported (allPaths_of_inner rfl hsize)

/-- The paths of the arguments of a call have the property. -/
theorem analyzeAll_paths (h : env.Binds P) : (args : List Expr) →
    (analyzeAll env args).Yields (fun found => ∀ arg ∈ found, arg.1.AllPaths P) fun _ => True
  | [] => yields_pure (List.forall_mem_nil _)
  | arg :: rest => by
    have harg := analyze_paths h arg
    have hrest := analyzeAll_paths h rest
    refine (Yields.within harg).bind fun _ harg => ?_
    refine (Yields.within hrest).bind fun _ hrest => ?_
    exact yields_pure (List.forall_mem_cons.2 ⟨harg, hrest⟩)

end

end Expr

namespace Stmt

/-- A statement without statements in it. -/
theorem allPaths_singleton {stmt : Stmt} (hstmts : stmt.stmts = [stmt]) (h : stmt.OwnPaths P) :
    stmt.AllPaths P := by
  rw [AllPaths, hstmts]
  exact List.forall_mem_singleton.2 h

theorem analyzeAssign_paths (h : env.Binds P) (span : Span) (target : Reference) (value : Expr) :
    (analyzeAssign span target value env).Yields (AllPaths P) fun _ => True := by
  refine (target.check_paths h _).bind fun _ htarget => ?_
  refine (Yields.within (value.analyze_paths h)).bind fun _ hvalue => ?_
  refine yields_reported (allPaths_singleton rfl ⟨?_, List.forall_mem_singleton.2 hvalue⟩)
  rintro _ ⟨⟩
  exact htarget

/-- The paths of an assignment to an array element have the property. -/
theorem analyzeIndexAssign_paths (h : env.Binds P) (span : Span) (target : Reference)
    (subscript value : Expr) : (analyzeIndexAssign span target subscript value env).Yields
      (AllPaths P) fun _ => True := by
  refine (target.check_paths h _).bind fun _ htarget => ?_
  refine (Yields.within (subscript.analyze_paths h)).bind fun _ hsubscript => ?_
  refine (Yields.within (value.analyze_paths h)).bind fun _ hvalue => ?_
  refine yields_conclude.bind fun _ _ => ?_
  refine yields_report.bind fun _ _ => ?_
  have hexprs := List.forall_mem_cons.2 ⟨hsubscript, List.forall_mem_singleton.2 hvalue⟩
  refine yields_reported (allPaths_singleton rfl ⟨?_, hexprs⟩)
  rintro _ ⟨⟩
  exact htarget

theorem analyzeCall_paths (h : env.Binds P) (span : Span) (callee : Reference) (args : List Expr) :
    (analyzeCall span callee args env).Yields (AllPaths P) fun _ => True := by
  have hcall := Typing.checkCall_paths h span callee args (Expr.analyzeAll_paths h args)
  refine (Yields.within hcall).bind fun _ ⟨hcallee, hargs⟩ => ?_
  refine yields_pure (allPaths_singleton rfl ⟨?_, hargs⟩)
  rintro _ ⟨⟩
  exact hcallee

theorem analyzeReturn_paths (h : env.Binds P) (span : Span) (value : Option Expr) :
    (analyzeReturn span value env).Yields (AllPaths P) fun _ => True := by
  cases value with
  | none => exact yields_reported (allPaths_singleton rfl ⟨nofun, List.forall_mem_nil _⟩)
  | some value =>
    refine (Yields.within (value.analyze_paths h)).bind fun _ hvalue => ?_
    exact yields_reported (allPaths_singleton rfl ⟨nofun, List.forall_mem_singleton.2 hvalue⟩)

theorem checkCondition_paths (h : env.Binds P) (construct : String) (cond : Expr) :
    (cond.checkCondition construct env).Yields (Expr.AllPaths P) fun _ => True := by
  refine (cond.analyze_paths h).bind fun _ hcond => ?_
  exact yields_reported hcond

end Stmt

end Paths

/-- The condition that analysis keeps on its way through a body, where it binds paths to what has
the property. -/
structure Bindings.Steady (method : MethodContext) (P : Reference → Prop) (inv : Bindings → Prop) :
    Prop where
  binds : ∀ {b}, inv b → (b.env method).Binds P
  push : ∀ {b}, inv b → inv { b with scope := b.scope.push }
  pop : ∀ {b}, inv b → inv { b with scope := b.scope.pop }
  declare : ∀ {b} {type : TypeExpr} {name span ty scope'}, inv b →
    type.resolve b.scope b.builtins = .ok ty →
      b.scope.declareLocal name b.table.nextId span = .ok scope' →
        inv { b with table := b.table.add name .localVar ty span, scope := scope' }
  /-- A variable may not be used in its own initial value, but all else is bound as ever. -/
  initial : ∀ {b} {x : SymbolId}, inv b →
    Env.Binds { b.env method with initializing := some x } P

namespace Stmt

open Walk

variable {method : MethodContext} {P : Reference → Prop} {inv : Bindings → Prop}

theorem inEnv_paths {ν α : Type} (h : Bindings.Steady method P inv) {part : Env → Check ν α}
    {Q : α → Prop} (hpart : ∀ {env}, env.Binds P → (part env).Yields Q fun _ => True) :
    Yields inv (inEnv method part) (fun a b => Q a ∧ inv b) fun _ => True :=
  Yields.get_bind fun _ hb => (yields_lift (hpart (h.binds hb))).weaken (fun _ => id)
    (fun _ _ hpost => ⟨hpost.1, hpost.2 ▸ hb⟩) fun _ => id

theorem push_paths {ν : Type} (h : Bindings.Steady method P inv) :
    Yields inv (onScope Scope.push : Walk ν Unit) (fun _ => inv) fun _ => True :=
  yields_onScope fun _ => h.push

theorem pop_paths {ν : Type} (h : Bindings.Steady method P inv) :
    Yields inv (onScope Scope.pop : Walk ν Unit) (fun _ => inv) fun _ => True :=
  yields_onScope fun _ => h.pop

theorem condition_paths {ν : Type} (h : Bindings.Steady method P inv) {rebuild : Expr → ν}
    (construct : String) (cond : Expr) :
    Yields inv (within rebuild (inEnv method (cond.checkCondition construct)))
      (fun cond' b => cond'.AllPaths P ∧ inv b) fun _ => True :=
  Yields.within (inEnv_paths h fun henv => checkCondition_paths henv construct cond)

/-- The paths of a declaration statement have the property. -/
theorem analyzeVarDecl_paths (h : Bindings.Steady method P inv) (span : Span) (var : LocalDef)
    (init : Expr) : (analyzeVarDecl method span var init).Yields inv
      (fun stmt b => stmt.AllPaths P ∧ inv b) fun _ => True := by
  refine Yields.get_bind fun b hb => ?_
  refine (yields_lift (Check.yields_orAbort trivial)).bind fun ty => Yields.intro fun hresolve => ?_
  refine (yields_lift (Check.yields_orAbort trivial)).bind fun scope' => Yields.intro fun hdeclare => ?_
  have hafter := h.declare hb hresolve hdeclare
  refine (yields_set (Q := fun _ => inv) hafter).bind fun _ => ?_
  refine (yields_lift (Check.Yields.within (init.analyze_paths (h.initial hafter)))).bind
    fun _ => Yields.intro fun hinit => ?_
  refine yields_report.bind fun _ => yields_pure fun _ hb => ⟨?_, hb⟩
  exact allPaths_singleton rfl ⟨nofun, List.forall_mem_singleton.2 hinit⟩

/-- A branch keeps the condition that its statement keeps. -/
theorem analyzeBranch_paths (h : Bindings.Steady method P inv) {stmt : Stmt}
    {analysis : Walk Stmt Stmt}
    (hstmt : analysis.Yields inv (fun stmt' b => stmt'.AllPaths P ∧ inv b) fun _ => True) :
    (analyzeBranch stmt analysis).Yields inv (fun stmt' b => stmt'.AllPaths P ∧ inv b)
      fun _ => True := by
  refine yields_report.bind fun _ => ?_
  refine (push_paths h).bind fun _ => ?_
  refine hstmt.bind fun _ => Yields.intro fun hstmt => ?_
  refine (pop_paths h).bind fun _ => ?_
  exact yields_pure fun _ hb => ⟨hstmt, hb⟩

/-- The paths of the condition of a loop have the property. -/
theorem loopCondition_paths (h : Bindings.Steady method P inv) {rebuild : Option Expr → Stmt}
    (cond : Option Expr) : Yields inv
      (within rebuild (match cond with
        | none => pure none
        | some cond => some <$> within some (inEnv method (cond.checkCondition "for"))))
      (fun cond' b => (∀ expr ∈ cond'.toList, expr.AllPaths P) ∧ inv b) fun _ => True := by
  refine Yields.within ?_
  cases cond with
  | none => exact yields_pure fun _ hb => ⟨List.forall_mem_nil _, hb⟩
  | some cond =>
    exact (condition_paths h "for" cond).map fun _ _ hb => ⟨List.forall_mem_singleton.2 hb.1, hb.2⟩

mutual

/-- What analysis makes of the paths of a statement has the property. -/
theorem analyze_paths (h : Bindings.Steady method P inv) : (stmt : Stmt) →
    (analyze method stmt).Yields inv (fun stmt' b => stmt'.AllPaths P ∧ inv b) fun _ => True
  | block span stmts => by
    unfold analyze
    have hstmts := analyzeAll_paths h stmts
    refine (push_paths h).bind fun _ => ?_
    refine (Yields.within hstmts).bind fun stmts' => Yields.intro fun hstmts => ?_
    refine (pop_paths h).bind fun _ => yields_pure fun _ hb => ⟨?_, hb⟩
    exact List.forall_mem_cons.2 ⟨⟨nofun, List.forall_mem_nil _⟩, hstmts⟩
  | varDecl span var init => by
    unfold analyze
    exact analyzeVarDecl_paths h span var init
  | assign span target value => by
    unfold analyze
    exact inEnv_paths h fun henv => analyzeAssign_paths henv span target value
  | indexAssign span target subscript value => by
    unfold analyze
    exact inEnv_paths h fun henv => analyzeIndexAssign_paths henv span target subscript value
  | call span callee args => by
    unfold analyze
    exact inEnv_paths h fun henv => analyzeCall_paths henv span callee args
  | .return span value => by
    unfold analyze
    exact inEnv_paths h fun henv => analyzeReturn_paths henv span value
  | ifElse span cond onTrue onFalse => by
    unfold analyze
    have hTrue := analyze_paths h onTrue
    refine (condition_paths h "if" cond).bind fun cond' => Yields.intro fun hcond => ?_
    refine (Yields.within (analyzeBranch_paths h hTrue)).bind fun onTrue' => ?_
    refine Yields.intro fun hTrue => ?_
    have hown : ∀ {onFalse'}, OwnPaths P (ifElse span cond' onTrue' onFalse') :=
      ⟨nofun, List.forall_mem_singleton.2 hcond⟩
    cases onFalse with
    | none =>
      refine yields_pure fun _ hb => ⟨List.forall_mem_cons.2 ⟨hown, ?_⟩, hb⟩
      exact List.forall_mem_append.2 ⟨hTrue, List.forall_mem_nil _⟩
    | some onFalse =>
      have hFalse := analyze_paths h onFalse
      refine (Yields.within (analyzeBranch_paths h hFalse)).bind fun onFalse' => ?_
      refine yields_pure fun _ hb => ⟨List.forall_mem_cons.2 ⟨hown, ?_⟩, hb.2⟩
      exact List.forall_mem_append.2 ⟨hTrue, hb.1⟩
  | .while span cond body => by
    unfold analyze
    have hbody := analyze_paths h body
    refine (condition_paths h "while" cond).bind fun cond' => Yields.intro fun hcond => ?_
    refine (Yields.within (analyzeBranch_paths h hbody)).bind fun body' => ?_
    refine yields_pure fun _ hb => ⟨List.forall_mem_cons.2 ⟨?_, hb.1⟩, hb.2⟩
    exact ⟨nofun, List.forall_mem_singleton.2 hcond⟩
  | .for span init cond update body => by
    unfold analyze
    have hinit := analyzeOption_paths h init
    have hupdate := analyzeOption_paths h update
    have hbody := analyze_paths h body
    refine (push_paths h).bind fun _ => ?_
    refine (Yields.within hinit).bind fun init' => Yields.intro fun hinit => ?_
    refine (loopCondition_paths h cond).bind fun cond' => Yields.intro fun hcond => ?_
    refine (Yields.within hupdate).bind fun update' => Yields.intro fun hupdate => ?_
    refine (Yields.within (analyzeBranch_paths h hbody)).bind fun body' => ?_
    refine Yields.intro fun hbody => ?_
    refine (pop_paths h).bind fun _ => yields_pure fun _ hb => ⟨?_, hb⟩
    exact List.forall_mem_cons.2 ⟨⟨nofun, hcond⟩,
      List.forall_mem_append.2 ⟨List.forall_mem_append.2 ⟨hinit, hupdate⟩, hbody⟩⟩

/-- The paths of a statement that may be left out have the property. -/
theorem analyzeOption_paths (h : Bindings.Steady method P inv) : (stmt : Option Stmt) →
    (analyzeOption method stmt).Yields inv
      (fun stmt' b => (∀ s ∈ optionStmts stmt', s.OwnPaths P) ∧ inv b) fun _ => True
  | none => by
    unfold analyzeOption
    exact yields_pure fun _ hb => ⟨List.forall_mem_nil _, hb⟩
  | some stmt => by
    unfold analyzeOption
    exact (Yields.within (analyze_paths h stmt)).map fun _ _ => id

/-- The paths of statements in a row have the property. -/
theorem analyzeAll_paths (h : Bindings.Steady method P inv) : (stmts : List Stmt) →
    (analyzeAll method stmts).Yields inv
      (fun stmts' b => (∀ s ∈ allStmts stmts', s.OwnPaths P) ∧ inv b) fun _ => True
  | [] => by
    unfold analyzeAll
    exact yields_pure fun _ hb => ⟨List.forall_mem_nil _, hb⟩
  | stmt :: rest => by
    unfold analyzeAll
    have hstmt := analyze_paths h stmt
    have hrest := analyzeAll_paths h rest
    refine (Yields.within hstmt).bind fun stmt' => Yields.intro fun hstmt => ?_
    refine (Yields.within hrest).bind fun rest' => ?_
    exact yields_pure fun _ hb => ⟨List.forall_mem_append.2 ⟨hstmt, hb.1⟩, hb.2⟩

end

end Stmt

end SmallJava
