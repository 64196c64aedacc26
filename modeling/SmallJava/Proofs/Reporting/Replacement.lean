import SmallJava.Proofs.Reporting.Absorption
import SmallJava.Proofs.Acceptance.Passes
import SmallJava.Proofs.Typing.ExprSoundness

/-! What a body reports in which one expression is replaced by a mistake. -/

namespace SmallJava

/-- The second of two typed nodes has the type of the first one, or that of a mistake. -/
def Expr.Absorbed (typed typed' : Expr × Ty) : Prop := typed.2.OrError typed'.2

theorem Expr.Absorbed.refl (typed : Expr × Ty) : Absorbed typed typed := Ty.OrError.refl _

theorem Expr.Absorbed.refl_all (typed : List (Expr × Ty)) : List.Forall₂ Absorbed typed typed :=
  List.forall₂_same.2 fun _ _ => .refl _

namespace Expr

mutual

/-- The second expression is the first one with `b` at one place where that has `a`. -/
inductive Replaced (a b : Expr) : Expr → Expr → Prop
  | here : Replaced a b a b
  | unary {annot op operand operand'} : Replaced a b operand operand' →
      Replaced a b (.unary annot op operand) (.unary annot op operand')
  | left {annot op left left' right} : Replaced a b left left' →
      Replaced a b (.binary annot op left right) (.binary annot op left' right)
  | right {annot op left right right'} : Replaced a b right right' →
      Replaced a b (.binary annot op left right) (.binary annot op left right')
  | cond {annot cond cond' onTrue onFalse} : Replaced a b cond cond' →
      Replaced a b (.ternary annot cond onTrue onFalse) (.ternary annot cond' onTrue onFalse)
  | onTrue {annot cond onTrue onTrue' onFalse} : Replaced a b onTrue onTrue' →
      Replaced a b (.ternary annot cond onTrue onFalse) (.ternary annot cond onTrue' onFalse)
  | onFalse {annot cond onTrue onFalse onFalse'} : Replaced a b onFalse onFalse' →
      Replaced a b (.ternary annot cond onTrue onFalse) (.ternary annot cond onTrue onFalse')
  | subscript {annot target subscript subscript'} : Replaced a b subscript subscript' →
      Replaced a b (.index annot target subscript) (.index annot target subscript')
  | args {annot callee args args'} : ListReplaced a b args args' →
      Replaced a b (.call annot callee args) (.call annot callee args')
  | size {annot elem size size'} : Replaced a b size size' →
      Replaced a b (.newArray annot elem size) (.newArray annot elem size')

inductive ListReplaced (a b : Expr) : List Expr → List Expr → Prop
  | head {expr expr' rest} : Replaced a b expr expr' →
      ListReplaced a b (expr :: rest) (expr' :: rest)
  | tail {expr rest rest'} : ListReplaced a b rest rest' →
      ListReplaced a b (expr :: rest) (expr :: rest')

end

end Expr

section Exprs

open Check

variable {env : Env} {a b b' : Expr} {found : List Diagnostic}

/-- A rule that gives the same type. -/
theorem Check.absorbs_verdict {ν : Type} {verdict verdict' : Ty × List Diagnostic}
    (h : ∀ ty, verdict = (ty, []) → verdict' = (ty, [])) :
    Absorbs Eq (conclude verdict : Check ν Ty) (conclude verdict') [] :=
  absorbs_conclude fun ty hty => ⟨ty, h ty hty, rfl⟩

/-- Checking a path does not depend on the node around it. -/
theorem Reference.check_absorbs {ν : Type} (rebuild rebuild' : Reference → ν) (target : Reference) :
    Absorbs Eq (target.check env rebuild) (target.check env rebuild') [] := by
  refine ⟨target.check_oblivious env rebuild, fun found hfound => ⟨found, rfl, ?_⟩⟩
  unfold check at hfound ⊢
  cases hanalyze : target.analyze env with
  | ok result => rwa [hanalyze] at hfound
  | error result =>
    rw [hanalyze] at hfound
    cases hfound []

/-- A call reports what its arguments do. -/
theorem Typing.checkCall_absorbs {span : Span} {callee : Reference} {args args' : List Expr}
    (h : Absorbs (List.Forall₂ Expr.Absorbed) (Expr.analyzeAll env args)
      (Expr.analyzeAll env args') found) :
    Absorbs (fun call call' => call.2.2 = call'.2.2)
      (checkCall env span callee args (Expr.analyzeAll env args))
      (checkCall env span callee args' (Expr.analyzeAll env args')) found := by
  refine (callee.check_absorbs _ _).next fun callee' => ?_
  refine (h.within _ _).first Expr.Absorbed.refl_all fun _ _ hargs => ?_
  refine (absorbs_verdict fun _ => call_absorbs hargs).next fun ty => ?_
  exact absorbs_pure rfl

/-- A part that stands around the mistake is analysed as before. -/
theorem Expr.analyze_stays {ν : Type} (expr : Expr) (rebuild rebuild' : Expr → ν) :
    Absorbs Eq (within rebuild (expr.analyze env)) (within rebuild' (expr.analyze env)) [] :=
  (expr.analyze_oblivious env).absorbs.within rebuild rebuild'

mutual

/-- An expression reports what the mistake in it does. It has its type as before, or it is a
mistake itself. -/
theorem Expr.Replaced.absorbs (hb : (b.analyze env).Gives (b', .error) found) {expr expr' : Expr} :
    Expr.Replaced a b expr expr' →
      Absorbs Expr.Absorbed (expr.analyze env) (expr'.analyze env) found
  | .here => ⟨a.analyze_oblivious env, fun _ _ => ⟨_, .inr rfl, hb⟩⟩
  | .unary h => by
    refine ((h.absorbs hb).within _ _).first .refl fun _ _ hor => ?_
    exact (absorbs_verdict fun _ => Typing.unary_absorbs hor).next fun _ => absorbs_pure (.inl rfl)
  | .left h => by
    refine ((h.absorbs hb).within _ _).first .refl fun _ _ hor => ?_
    refine (Expr.analyze_stays _ _ _).next fun _ => ?_
    refine (absorbs_verdict fun _ => Typing.binary_absorbs hor (.refl _)).next fun _ => ?_
    exact absorbs_pure (.inl rfl)
  | .right h => by
    refine (Expr.analyze_stays _ _ _).next fun _ => ?_
    refine ((h.absorbs hb).within _ _).first .refl fun _ _ hor => ?_
    refine (absorbs_verdict fun _ => Typing.binary_absorbs (.refl _) hor).next fun _ => ?_
    exact absorbs_pure (.inl rfl)
  | .cond h => by
    refine ((h.absorbs hb).within _ _).first .refl fun _ _ hor => ?_
    refine (absorbs_report (Typing.required_absorbs hor)).next fun _ => ?_
    refine (Expr.analyze_stays _ _ _).next fun _ => ?_
    refine (Expr.analyze_stays _ _ _).next fun _ => ?_
    exact (absorbs_verdict fun _ => id).next fun _ => absorbs_pure (.inl rfl)
  | .onTrue h => by
    refine (Expr.analyze_stays _ _ _).next fun _ => oblivious_report.absorbs.next fun _ => ?_
    refine ((h.absorbs hb).within _ _).first .refl fun _ _ hor => ?_
    refine (Expr.analyze_stays _ _ _).next fun _ => ?_
    refine (absorbs_conclude fun _ => Typing.ternary_absorbs hor (.refl _)).first .refl ?_
    exact fun _ _ hty => absorbs_pure hty
  | .onFalse h => by
    refine (Expr.analyze_stays _ _ _).next fun _ => oblivious_report.absorbs.next fun _ => ?_
    refine (Expr.analyze_stays _ _ _).next fun _ => ?_
    refine ((h.absorbs hb).within _ _).first .refl fun _ _ hor => ?_
    refine (absorbs_conclude fun _ => Typing.ternary_absorbs (.refl _) hor).first .refl ?_
    exact fun _ _ hty => absorbs_pure hty
  | .subscript h => by
    refine (Reference.check_absorbs _ _ _).next fun _ => ?_
    refine ((h.absorbs hb).within _ _).first .refl fun _ _ hor => ?_
    refine (absorbs_verdict fun _ => id).next fun _ => ?_
    exact (absorbs_report (Typing.required_absorbs hor)).next fun _ => absorbs_pure (.inl rfl)
  | .args h => by
    refine ((Typing.checkCall_absorbs (h.absorbs hb)).within _ _).first (fun _ => rfl) ?_
    exact fun _ _ hty => absorbs_pure (.inl hty.symm)
  | .size h => by
    refine absorbs_orAbort.next fun _ => ?_
    refine ((h.absorbs hb).within _ _).first .refl fun _ _ hor => ?_
    exact (absorbs_report (Typing.required_absorbs hor)).next fun _ => absorbs_pure (.inl rfl)

/-- An argument that is replaced by a mistake makes just the difference of what is reported on the
mistake. -/
theorem Expr.ListReplaced.absorbs (hb : (b.analyze env).Gives (b', .error) found)
    {exprs exprs' : List Expr} : Expr.ListReplaced a b exprs exprs' →
      Absorbs (List.Forall₂ Expr.Absorbed) (Expr.analyzeAll env exprs) (Expr.analyzeAll env exprs')
        found
  | .head h => by
    refine ((h.absorbs hb).within _ _).first .refl fun _ _ hor => ?_
    refine ((Expr.analyzeAll_oblivious env _).absorbs.within _ _).next fun _ => ?_
    exact absorbs_pure (.cons hor (Expr.Absorbed.refl_all _))
  | .tail h => by
    refine (Expr.analyze_stays _ _ _).next fun _ => ?_
    refine ((h.absorbs hb).within _ _).first Expr.Absorbed.refl_all fun _ _ hrest => ?_
    exact absorbs_pure (.cons (.refl _) hrest)

end

end Exprs

namespace Stmt

mutual

/-- The second statement is the first one with `b` at one place where that has `a`, in a method
where `names` are in force before the statement. What `a` and `b` mean depends on `env`. -/
inductive Replaced (method : MethodContext) (a b : Expr) : Env → Bindings → Stmt → Stmt → Prop
  | block {env names span stmts stmts'} :
      ListReplaced method a b env { names with scope := names.scope.push } stmts stmts' →
      Replaced method a b env names (.block span stmts) (.block span stmts')
  | init {names span var ty scope init init'} :
      var.type.resolve names.scope names.builtins = .ok ty →
      names.scope.declareLocal var.name names.table.nextId var.span = .ok scope →
      Expr.Replaced a b init init' →
      Replaced method a b
        { names with
          table := names.table.add var.name .localVar ty var.span
          scope, method, initializing := some names.table.nextId }
        names (.varDecl span var init) (.varDecl span var init')
  | assigned {names span target value value'} : Expr.Replaced a b value value' →
      Replaced method a b (names.env method) names (.assign span target value)
        (.assign span target value')
  | subscript {names span target subscript subscript' value} :
      Expr.Replaced a b subscript subscript' →
      Replaced method a b (names.env method) names (.indexAssign span target subscript value)
        (.indexAssign span target subscript' value)
  | stored {names span target subscript value value'} : Expr.Replaced a b value value' →
      Replaced method a b (names.env method) names (.indexAssign span target subscript value)
        (.indexAssign span target subscript value')
  | args {names span callee args args'} : Expr.ListReplaced a b args args' →
      Replaced method a b (names.env method) names (.call span callee args)
        (.call span callee args')
  | returned {names span value value'} : Expr.Replaced a b value value' →
      Replaced method a b (names.env method) names (.return span (some value))
        (.return span (some value'))
  | ifCond {names span cond cond' onTrue onFalse} : Expr.Replaced a b cond cond' →
      Replaced method a b (names.env method) names (.ifElse span cond onTrue onFalse)
        (.ifElse span cond' onTrue onFalse)
  | onTrue {env names span cond onTrue onTrue' onFalse} :
      Replaced method a b env { names with scope := names.scope.push } onTrue onTrue' →
      Replaced method a b env names (.ifElse span cond onTrue onFalse)
        (.ifElse span cond onTrue' onFalse)
  | onFalse {env names span cond onTrue done after onFalse onFalse'} :
      (analyzeBranch onTrue (onTrue.analyze method)).Passes names done after →
      Replaced method a b env { after with scope := after.scope.push } onFalse onFalse' →
      Replaced method a b env names (.ifElse span cond onTrue (some onFalse))
        (.ifElse span cond onTrue (some onFalse'))
  | whileCond {names span cond cond' body} : Expr.Replaced a b cond cond' →
      Replaced method a b (names.env method) names (.while span cond body) (.while span cond' body)
  | whileBody {env names span cond body body'} :
      Replaced method a b env { names with scope := names.scope.push } body body' →
      Replaced method a b env names (.while span cond body) (.while span cond body')
  | forInit {env names span init init' cond update body} :
      Replaced method a b env { names with scope := names.scope.push } init init' →
      Replaced method a b env names (.for span (some init) cond update body)
        (.for span (some init') cond update body)
  | forCond {names span init done inside cond cond' update body} :
      (analyzeOption method init).Passes { names with scope := names.scope.push } done inside →
      Expr.Replaced a b cond cond' →
      Replaced method a b (inside.env method) names (.for span init (some cond) update body)
        (.for span init (some cond') update body)
  | forUpdate {env names span init done inside cond update update' body} :
      (analyzeOption method init).Passes { names with scope := names.scope.push } done inside →
      Replaced method a b env inside update update' →
      Replaced method a b env names (.for span init cond (some update) body)
        (.for span init cond (some update') body)
  | forBody {env names span init done inside cond update done' after body body'} :
      (analyzeOption method init).Passes { names with scope := names.scope.push } done inside →
      (analyzeOption method update).Passes inside done' after →
      Replaced method a b env { after with scope := after.scope.push } body body' →
      Replaced method a b env names (.for span init cond update body)
        (.for span init cond update body')

inductive ListReplaced (method : MethodContext) (a b : Expr) :
    Env → Bindings → List Stmt → List Stmt → Prop
  | head {env names stmt stmt' rest} : Replaced method a b env names stmt stmt' →
      ListReplaced method a b env names (stmt :: rest) (stmt' :: rest)
  | tail {env names stmt done after rest rest'} :
      (stmt.analyze method).Passes names done after →
      ListReplaced method a b env after rest rest' →
      ListReplaced method a b env names (stmt :: rest) (stmt :: rest')

end

end Stmt

section Stmts

open Walk

variable {μ ν α : Type} {method : MethodContext} {env : Env} {names after : Bindings} {a b b' : Expr}
  {found : List Diagnostic}

namespace Walk

/-- A part that looks at bindings without changing them. -/
theorem Gives.of_inEnv {part : Env → Check ν α} (hpart : ∀ env, (part env).Oblivious) {x : α}
    (h : (inEnv method part).Gives names x after []) : after = names := by
  obtain ⟨found, _, hget, hlift⟩ := h.of_bind oblivious_get fun _ => oblivious_lift (hpart _)
  obtain ⟨rfl, rfl⟩ := Prod.mk.inj (Check.Gives.unique hget gives_get).1
  obtain ⟨x', -, hpure⟩ := Check.Gives.of_bind hlift (hpart _) fun _ => Check.oblivious_pure
  exact (Prod.mk.inj (Check.Gives.of_pure hpure)).2.symm

/-- What a change makes of a part, it makes of the part where the names of the method are in force.
-/
theorem absorbs_inEnv {part part' : Env → Check ν α} {R : α → α → Prop}
    (hpart : ∀ env, (part env).Oblivious)
    (h : Check.Absorbs R (part (names.env method)) (part' (names.env method)) found) :
    Absorbs (· = names) (inEnv method part) (inEnv method part') found where
  oblivious := oblivious_inEnv hpart
  absorbs := by
    rintro _ x after rfl hx
    obtain ⟨x', hfirst, hpure⟩ := Check.Gives.of_bind hx (hpart _) fun _ => Check.oblivious_pure
    obtain ⟨rfl, rfl⟩ := Prod.mk.inj (Check.Gives.of_pure hpure)
    obtain ⟨x'', -, hx''⟩ := h.absorbs x' hfirst
    exact ⟨x'', gives_lift hx''⟩

end Walk

theorem Walk.Oblivious.gives {part : Walk ν α} (h : part.Oblivious) {x : α}
    (hpasses : part.Passes names x after) : part.Gives names x after [] :=
  Check.Oblivious.gives (h names) hpasses

/-- A part that passes leaves the names and declarations that it is known to leave. -/
theorem Walk.Gives.eq_of_passes {part : Walk ν α} {x x' : α} {mid : Bindings}
    (h : part.Gives names x mid []) (hpasses : part.Passes names x' after) : mid = after :=
  (Prod.mk.inj (EStateM.Result.ok.inj ((h []).symm.trans hpasses)).1).2

namespace Stmt

variable {stmt stmt' : Stmt}

/-- What stands in a scope of its own. -/
theorem absorbs_inScope {f f' : Unit → Walk ν α}
    (hf : ∀ u u', Absorbs (· = { names with scope := names.scope.push }) (f u) (f' u') found) :
    Absorbs (· = names) (onScope Scope.push >>= f) (onScope Scope.push >>= f') found := by
  refine oblivious_onScope.absorbs.next ?_ hf
  rintro _ u mid rfl h
  exact h.of_onScope

/-- A branch reports what its statement does. -/
theorem analyzeBranch_absorbs {analysis analysis' : Walk Stmt Stmt}
    (hdecl : stmt'.isVarDecl = stmt.isVarDecl)
    (h : Absorbs (· = { names with scope := names.scope.push }) analysis analysis' found) :
    Absorbs (· = names) (analyzeBranch stmt analysis) (analyzeBranch stmt' analysis') found := by
  have hbranch : Typing.branch stmt = [] → Typing.branch stmt' = [] := by
    unfold Typing.branch
    rw [hdecl]
    split <;> simp
  have hrest : Absorbs (· = names)
      (do onScope Scope.push; let stmt ← analysis; onScope Scope.pop; pure stmt)
      (do onScope Scope.push; let stmt ← analysis'; onScope Scope.pop; pure stmt) found :=
    absorbs_inScope fun _ _ => h.first fun _ _ => oblivious_onScope.absorbs.first fun _ _ => absorbs_pure
  exact (absorbs_report hbranch).next
    (fun _ _ _ hstart hgives => hgives.of_report.2.trans hstart) fun _ _ => hrest

/-- A declaration about which nothing is reported. -/
theorem passes_varDecl {span : Span} {var : LocalDef} {init : Expr} :
    (analyzeVarDecl method span var init).Passes names stmt after ↔ ∃ ty scope typed,
      var.type.resolve names.scope names.builtins = .ok ty ∧
        names.scope.declareLocal var.name names.table.nextId var.span = .ok scope ∧
          (init.analyze { names with
            table := names.table.add var.name .localVar ty var.span
            scope, method, initializing := some names.table.nextId }).Passes typed ∧
            Typing.initial (names.table.add var.name .localVar ty var.span) var.name ty typed.2 span =
              [] ∧
              stmt = .varDecl span { var with binding := some names.table.nextId } typed.1 ∧
                after = { names with
                  table := names.table.add var.name .localVar ty var.span
                  scope } := by
  have haccepts : (analyzeVarDecl method span var init).Accepts _ :=
    accepts_get.bind fun names => (accepts_lift Check.accepts_orAbort).bind fun ty =>
      (accepts_lift Check.accepts_orAbort).bind fun scope => accepts_set.bind fun _ =>
        (accepts_lift ((Check.accepts_passes (init.analyze_ensures _)).within _)).bind fun typed =>
          accepts_report.bind fun _ => accepts_pure
  rw [haccepts.iff]
  constructor
  · rintro ⟨_, _, ⟨rfl, rfl⟩, ty, _, ⟨hty, rfl⟩, scope, _, ⟨hscope, rfl⟩, _, _, rfl, typed, _,
      ⟨hinit, rfl⟩, _, _, ⟨hinitial, rfl⟩, rfl, rfl⟩
    exact ⟨ty, scope, typed, hty, hscope, hinit, hinitial, rfl, rfl⟩
  · rintro ⟨ty, scope, typed, hty, hscope, hinit, hinitial, rfl, rfl⟩
    exact ⟨_, _, ⟨rfl, rfl⟩, ty, _, ⟨hty, rfl⟩, scope, _, ⟨hscope, rfl⟩, ⟨⟩, _, rfl, typed, _,
      ⟨hinit, rfl⟩, (), _, ⟨hinitial, rfl⟩, rfl, rfl⟩

/-- An initial value that is replaced by a mistake makes just the difference of what is reported on
the mistake. -/
theorem analyzeVarDecl_absorbs {span : Span} {var : LocalDef} {init init' : Expr} {ty : Ty}
    {scope : Scope} (hresolve : var.type.resolve names.scope names.builtins = .ok ty)
    (hdeclare : names.scope.declareLocal var.name names.table.nextId var.span = .ok scope)
    (h : Check.Absorbs Expr.Absorbed
      (init.analyze { names with
        table := names.table.add var.name .localVar ty var.span
        scope, method, initializing := some names.table.nextId })
      (init'.analyze { names with
        table := names.table.add var.name .localVar ty var.span
        scope, method, initializing := some names.table.nextId }) found) :
    Absorbs (· = names) (analyzeVarDecl method span var init) (analyzeVarDecl method span var init')
      found := by
  refine ⟨analyzeVarDecl_oblivious method span var init, ?_⟩
  rintro _ stmt after rfl hstmt
  obtain ⟨ty', scope', typed, hty, hscope, hinit, hinitial, rfl, rfl⟩ := passes_varDecl.1 (hstmt [])
  obtain rfl := Except.ok.inj (hresolve.symm.trans hty)
  obtain rfl := Except.ok.inj (hdeclare.symm.trans hscope)
  obtain ⟨typed', hor, hgives⟩ := h.absorbs typed (h.oblivious.gives hinit)
  exact ⟨_, gives_get.next ((gives_lift (Check.gives_orAbort hresolve)).next
    ((gives_lift (Check.gives_orAbort hdeclare)).next (gives_set.next
      ((gives_lift (hgives.within _)).first ((gives_lift (Check.gives_silence
        (Typing.initial_absorbs hor hinitial))).next gives_pure)))))⟩

theorem Replaced.isVarDecl (h : Replaced method a b env names stmt stmt') :
    stmt'.isVarDecl = stmt.isVarDecl := by
  cases h <;> rfl

/-- A condition that is replaced by a mistake makes just the difference of what is reported on the
mistake. -/
theorem checkCondition_absorbs {construct : String} {cond cond' : Expr}
    (h : Check.Absorbs Expr.Absorbed (cond.analyze (names.env method))
      (cond'.analyze (names.env method)) found) :
    Absorbs (· = names) (inEnv method (cond.checkCondition construct))
      (inEnv method (cond'.checkCondition construct)) found :=
  absorbs_inEnv (R := fun _ _ => True) (cond.checkCondition_oblivious construct) <|
    h.first .refl fun _ _ hor =>
      (Check.absorbs_report (Typing.required_absorbs hor)).next fun _ => Check.absorbs_pure trivial

/-- A condition that stays as it is leaves everything as it is. -/
theorem checkCondition_stays (construct : String) (cond : Expr) :
    Absorbs (· = names) (inEnv method (cond.checkCondition construct))
      (inEnv method (cond.checkCondition construct)) [] :=
  (oblivious_inEnv (cond.checkCondition_oblivious construct)).absorbs

theorem Gives.of_checkCondition {construct : String} {cond : Expr} {rebuild : Expr → Stmt}
    {before mid : Bindings} {cond' : Expr} (hbefore : before = names)
    (h : (within rebuild (inEnv method (cond.checkCondition construct))).Gives before cond' mid []) :
    mid = names :=
  (h.of_within.of_inEnv (cond.checkCondition_oblivious construct)).trans hbefore

theorem loopCondition_oblivious (method : MethodContext) (cond : Option Expr) :
    Oblivious (match cond with
      | none => pure none
      | some cond => some <$> within some (inEnv method (cond.checkCondition "for"))) := by
  cases cond with
  | none => exact oblivious_pure
  | some cond => exact ((oblivious_inEnv (cond.checkCondition_oblivious "for")).within _).map

/-- The condition of a loop changes no names and declarations. -/
theorem Gives.of_loopCondition {cond cond' : Option Expr} {before mid : Bindings}
    (h : Walk.Gives (match cond with
      | none => pure none
      | some cond => some <$> within some (inEnv method (cond.checkCondition "for"))) before
        cond' mid []) : mid = before := by
  cases cond with
  | none => exact h.of_pure.2
  | some cond =>
    dsimp only at h
    rw [map_eq_pure_bind] at h
    obtain ⟨_, _, hcond, hpure⟩ := h.of_bind
      ((oblivious_inEnv (cond.checkCondition_oblivious "for")).within _) fun _ => oblivious_pure
    exact hpure.of_pure.2.trans (hcond.of_within.of_inEnv (cond.checkCondition_oblivious "for"))

/-! What stands around the mistake is the same on both sides: what comes before leaves the names
and declarations that are known to be in force at the mistake, and what comes after reports
nothing. -/

section Around

variable {β : Type}

theorem absorbs_popped {stmt stmt' : Stmt} {start : Bindings → Prop} :
    Absorbs start (do onScope Scope.pop; pure stmt : Walk Stmt Stmt)
      (do onScope Scope.pop; pure stmt') [] :=
  oblivious_onScope.absorbs.first fun _ _ => absorbs_pure

theorem absorbs_after {part : Walk μ α} {a : α} (hpart : part.Oblivious)
    (hpasses : part.Passes names a after) {rebuild rebuild' : μ → ν} {f f' : α → Walk ν β}
    (hf : ∀ a a', Absorbs (· = after) (f a) (f' a') found) :
    Absorbs (· = names) (within rebuild part >>= f) (within rebuild' part >>= f') found := by
  refine (hpart.absorbs.within _ _).next (fun before a mid hbefore hgives => ?_) hf
  exact (hbefore ▸ hgives.of_within).eq_of_passes hpasses

/-- A change behind a condition makes the difference that it makes without the condition. -/
theorem absorbs_afterCondition {construct : String} {cond : Expr} {rebuild rebuild' : Expr → Stmt}
    {f f' : Expr → Walk Stmt β} (hf : ∀ a a', Absorbs (· = names) (f a) (f' a') found) :
    Absorbs (· = names)
      (within rebuild (inEnv method (cond.checkCondition construct)) >>= f)
      (within rebuild' (inEnv method (cond.checkCondition construct)) >>= f') found := by
  refine ((checkCondition_stays construct cond).within _ _).next (fun _ _ _ hbefore hgives => ?_) hf
  exact Gives.of_checkCondition hbefore hgives

/-- A change behind the condition of a loop makes the difference that it makes without the
condition. -/
theorem absorbs_afterLoopCondition {cond : Option Expr} {rebuild rebuild' : Option Expr → Stmt}
    {f f' : Option Expr → Walk Stmt β} (hf : ∀ a a', Absorbs (· = names) (f a) (f' a') found) :
    Absorbs (· = names)
      (within rebuild (match cond with
        | none => pure none
        | some cond => some <$> within some (inEnv method (cond.checkCondition "for"))) >>= f)
      (within rebuild' (match cond with
        | none => pure none
        | some cond => some <$> within some (inEnv method (cond.checkCondition "for"))) >>= f')
      found := by
  refine ((loopCondition_oblivious method cond).absorbs.within _ _).next
    (fun _ _ _ hbefore hgives => ?_) hf
  exact (Gives.of_loopCondition hgives.of_within).trans hbefore

theorem branch_stays {start : Bindings → Prop} (stmt : Stmt) (rebuild rebuild' : Stmt → Stmt) :
    Absorbs start (within rebuild (analyzeBranch stmt (stmt.analyze method)))
      (within rebuild' (analyzeBranch stmt (stmt.analyze method))) [] :=
  (analyzeBranch_oblivious (analyze_oblivious method stmt)).absorbs.within _ _

theorem option_stays {start : Bindings → Prop} (stmt : Option Stmt)
    (rebuild rebuild' : Option Stmt → Stmt) :
    Absorbs start (within rebuild (analyzeOption method stmt))
      (within rebuild' (analyzeOption method stmt)) [] :=
  (analyzeOption_oblivious method stmt).absorbs.within _ _

end Around

mutual

/-- A statement reports what the mistake in it does. -/
theorem Replaced.absorbs {env : Env} {names : Bindings} {stmt stmt' : Stmt} :
    Replaced method a b env names stmt stmt' → (b.analyze env).Gives (b', .error) found →
      Absorbs (· = names) (stmt.analyze method) (stmt'.analyze method) found
  | .block h, hb => by
    refine absorbs_inScope fun _ _ => ?_
    exact ((h.absorbs hb).within _ _).first fun _ _ => absorbs_popped
  | .init hresolve hdeclare h, hb => analyzeVarDecl_absorbs hresolve hdeclare (h.absorbs hb)
  | .assigned h, hb => by
    refine absorbs_inEnv (R := fun _ _ => True) (analyzeAssign_oblivious _ _ _) ?_
    refine (Reference.check_absorbs _ _ _).next fun _ => ?_
    refine ((h.absorbs hb).within _ _).first .refl fun _ _ hor => ?_
    exact (Check.absorbs_report (Typing.assignment_absorbs hor)).next fun _ =>
      Check.absorbs_pure trivial
  | .subscript h, hb => by
    refine absorbs_inEnv (R := fun _ _ => True) (analyzeIndexAssign_oblivious _ _ _ _) ?_
    refine (Reference.check_absorbs _ _ _).next fun _ => ?_
    refine ((h.absorbs hb).within _ _).first .refl fun _ _ hor => ?_
    refine ((Expr.analyze_oblivious _ _).absorbs.within _ _).next fun _ => ?_
    refine (Check.absorbs_verdict fun _ => id).next fun _ => ?_
    refine (Check.absorbs_report (Typing.required_absorbs hor)).next fun _ => ?_
    exact (Check.absorbs_report id).next fun _ => Check.absorbs_pure trivial
  | .stored h, hb => by
    refine absorbs_inEnv (R := fun _ _ => True) (analyzeIndexAssign_oblivious _ _ _ _) ?_
    refine (Reference.check_absorbs _ _ _).next fun _ => ?_
    refine ((Expr.analyze_oblivious _ _).absorbs.within _ _).next fun _ => ?_
    refine ((h.absorbs hb).within _ _).first .refl fun _ _ hor => ?_
    refine (Check.absorbs_verdict fun _ => id).next fun _ => ?_
    refine (Check.absorbs_report id).next fun _ => ?_
    exact (Check.absorbs_report (Typing.stored_absorbs hor)).next fun _ => Check.absorbs_pure trivial
  | .args h, hb => by
    refine absorbs_inEnv (R := fun _ _ => True) (analyzeCall_oblivious _ _ _) ?_
    exact ((Typing.checkCall_absorbs (h.absorbs hb)).within _ _).first (fun _ => rfl) fun _ _ _ =>
      Check.absorbs_pure trivial
  | .returned h, hb => by
    refine absorbs_inEnv (R := fun _ _ => True) (analyzeReturn_oblivious _ (some _)) ?_
    refine ((h.absorbs hb).within _ _).first .refl fun _ _ hor => ?_
    exact (Check.absorbs_report (Typing.returned_absorbs hor)).next fun _ =>
      Check.absorbs_pure trivial
  | @Replaced.ifCond _ _ _ _ _ _ _ _ none h, hb => by
    refine ((checkCondition_absorbs (h.absorbs hb)).within _ _).first fun _ _ => ?_
    exact (branch_stays _ _ _).first fun _ _ => absorbs_pure
  | @Replaced.ifCond _ _ _ _ _ _ _ _ (some _) h, hb => by
    refine ((checkCondition_absorbs (h.absorbs hb)).within _ _).first fun _ _ => ?_
    refine (branch_stays _ _ _).first fun _ _ => ?_
    exact (branch_stays _ _ _).first fun _ _ => absorbs_pure
  | @Replaced.onTrue _ _ _ _ _ _ _ _ _ none h, hb => by
    refine absorbs_afterCondition fun _ _ => ?_
    exact ((analyzeBranch_absorbs h.isVarDecl (h.absorbs hb)).within _ _).first fun _ _ => absorbs_pure
  | @Replaced.onTrue _ _ _ _ _ _ _ _ _ (some _) h, hb => by
    refine absorbs_afterCondition fun _ _ => ?_
    refine ((analyzeBranch_absorbs h.isVarDecl (h.absorbs hb)).within _ _).first fun _ _ => ?_
    exact (branch_stays _ _ _).first fun _ _ => absorbs_pure
  | .onFalse hpasses h, hb => by
    refine absorbs_afterCondition fun _ _ => ?_
    refine absorbs_after (analyzeBranch_oblivious (analyze_oblivious method _)) hpasses fun _ _ => ?_
    exact ((analyzeBranch_absorbs h.isVarDecl (h.absorbs hb)).within _ _).first fun _ _ => absorbs_pure
  | .whileCond h, hb => by
    refine ((checkCondition_absorbs (h.absorbs hb)).within _ _).first fun _ _ => ?_
    exact (branch_stays _ _ _).first fun _ _ => absorbs_pure
  | .whileBody h, hb => by
    refine absorbs_afterCondition fun _ _ => ?_
    exact ((analyzeBranch_absorbs h.isVarDecl (h.absorbs hb)).within _ _).first fun _ _ => absorbs_pure
  | .forInit h, hb => by
    refine absorbs_inScope fun _ _ => ?_
    refine ((((h.absorbs hb).within _ _).map _ _).within _ _).first fun _ _ => ?_
    refine ((loopCondition_oblivious method _).absorbs.within _ _).first fun _ _ => ?_
    refine (option_stays _ _ _).first fun _ _ => ?_
    exact (branch_stays _ _ _).first fun _ _ => absorbs_popped
  | .forCond hpasses h, hb => by
    refine absorbs_inScope fun _ _ => ?_
    refine absorbs_after (analyzeOption_oblivious method _) hpasses fun _ _ => ?_
    refine ((((checkCondition_absorbs (h.absorbs hb)).within _ _).map _ _).within _ _).first
      fun _ _ => ?_
    refine (option_stays _ _ _).first fun _ _ => ?_
    exact (branch_stays _ _ _).first fun _ _ => absorbs_popped
  | .forUpdate hpasses h, hb => by
    refine absorbs_inScope fun _ _ => ?_
    refine absorbs_after (analyzeOption_oblivious method _) hpasses fun _ _ => ?_
    refine absorbs_afterLoopCondition fun _ _ => ?_
    refine ((((h.absorbs hb).within _ _).map _ _).within _ _).first fun _ _ => ?_
    exact (branch_stays _ _ _).first fun _ _ => absorbs_popped
  | .forBody hpasses hpasses' h, hb => by
    refine absorbs_inScope fun _ _ => ?_
    refine absorbs_after (analyzeOption_oblivious method _) hpasses fun _ _ => ?_
    refine absorbs_afterLoopCondition fun _ _ => ?_
    refine absorbs_after (analyzeOption_oblivious method _) hpasses' fun _ _ => ?_
    exact ((analyzeBranch_absorbs h.isVarDecl (h.absorbs hb)).within _ _).first fun _ _ =>
      absorbs_popped

/-- Statements in sequence report what the mistake in them does. -/
theorem ListReplaced.absorbs {env : Env} {names : Bindings} {stmts stmts' : List Stmt} :
    ListReplaced method a b env names stmts stmts' → (b.analyze env).Gives (b', .error) found →
      Absorbs (· = names) (analyzeAll method stmts) (analyzeAll method stmts') found
  | .head h, hb => by
    refine ((h.absorbs hb).within _ _).first fun _ _ => ?_
    exact ((analyzeAll_oblivious method _).absorbs.within _ _).first fun _ _ => absorbs_pure
  | .tail hpasses h, hb => by
    refine absorbs_after (analyze_oblivious method _) hpasses fun _ _ => ?_
    exact ((h.absorbs hb).within _ _).first fun _ _ => absorbs_pure

end

end Stmt

end Stmts

end SmallJava
