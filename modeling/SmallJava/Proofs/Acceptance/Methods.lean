import SmallJava.Proofs.Acceptance.Statements
import SmallJava.Proofs.Analysis.Erase
import SmallJava.Proofs.Declaration.Analyze

namespace SmallJava

open Walk

namespace Source

/-- A written type denotes one type. -/
theorem Denotes.unique {classes : List ClassSig} {type : TypeExpr} {τ τ' : Ty}
    (h : Denotes classes type τ) (h' : Denotes classes type τ') : τ = τ' := by
  induction h generalizing τ' with
  | @object span cls hcls hname =>
    generalize hother : cls.name = name at h'
    cases h' with
    | string => exact absurd hother hname
    | object => rfl
  | string =>
    generalize hother : "String" = name at h'
    cases h' with
    | string => rfl
    | object _ hname => exact absurd hother.symm hname
  | array _ ih =>
    cases h' with
    | array helem => rw [ih helem]
  | _ => cases h'; rfl

/-- A list of written parameter types denotes one list of types. -/
theorem Denotes.unique_types {classes : List ClassSig} {params : List ParamDef} {types types' : List Ty}
    (h : List.Forall₂ (fun param τ => Denotes classes param.type τ) params types)
    (h' : List.Forall₂ (fun param τ => Denotes classes param.type τ) params types') : types = types' := by
  induction h generalizing types' with
  | nil =>
    cases h'
    rfl
  | cons hfirst _ ih =>
    cases h' with
    | cons hfirst' hrest' => rw [hfirst.unique hfirst', ih hrest']

end Source

namespace Stmt

mutual

/-- The check of the shape of a statement says what the rules say. -/
theorem alwaysReturns_iff : (stmt : Stmt) → (alwaysReturns stmt = true ↔ Source.Returns stmt)
  | .return .. => iff_of_true rfl .return
  | .block span stmts => (allReturn_iff stmts).trans ⟨.block, fun | .block h => h⟩
  | .ifElse _ _ onTrue (some onFalse) => by
    rw [alwaysReturns, Bool.and_eq_true, alwaysReturns_iff onTrue, alwaysReturns_iff onFalse]
    exact ⟨fun h => .ifElse h.1 h.2, fun | .ifElse htrue hfalse => ⟨htrue, hfalse⟩⟩
  | .ifElse _ _ _ none | .varDecl .. | .assign .. | .indexAssign .. | .call .. | .while .. | .for .. =>
    iff_of_false nofun nofun

theorem allReturn_iff : (stmts : List Stmt) → (allReturn stmts = true ↔ Source.ReturnsAll stmts)
  | [] => iff_of_false nofun nofun
  | [stmt] => (alwaysReturns_iff stmt).trans
    ⟨.last, fun | .last h => h | .cons h => nomatch h⟩
  | _ :: next :: rest => (allReturn_iff (next :: rest)).trans ⟨.cons, fun | .cons h => h⟩

end

mutual

/-- The shape of a statement does not depend on what analysis records in it. -/
theorem alwaysReturns_erase : (stmt : Stmt) → stmt.erase.alwaysReturns = stmt.alwaysReturns
  | .return .. | .varDecl .. | .assign .. | .indexAssign .. | .call .. | .while .. | .for .. => rfl
  | .block _ stmts => allReturn_erase stmts
  | .ifElse _ _ _ none => rfl
  | .ifElse _ _ onTrue (some onFalse) =>
    congrArg₂ and (alwaysReturns_erase onTrue) (alwaysReturns_erase onFalse)

theorem allReturn_erase : (stmts : List Stmt) → allReturn (eraseAll stmts) = allReturn stmts
  | [] => rfl
  | [stmt] => alwaysReturns_erase stmt
  | _ :: next :: rest => allReturn_erase (next :: rest)

end

end Stmt

/-- The classes are declared, and the names of members in force are those of the class. -/
structure Bindings.WithMembers (decls : List ClassDef) (cls : ClassDef) (b : Bindings) : Prop where
  knows : b.Knows decls
  members : ∀ name x, b.scope.members.get? name = some x ↔
    ∃ d ∈ cls.members, d.name = name ∧ d.binding = some x

variable {decls : List ClassDef} {cls : ClassDef} {b : Bindings}

/-- A parameter is entered when its name is free in the scope of the method. -/
theorem ParamDef.accepts_enter {param : ParamDef} {x : SymbolId} (hbound : param.binding = some x) :
    param.enter.Accepts fun before param' after => ∃ scope,
      before.scope.declareLocal param.name x param.span = .ok scope ∧
        param' = param ∧ after = { before with scope } := by
  unfold enter
  rw [hbound]
  refine (accepts_get.bind fun bindings => (accepts_lift Check.accepts_orAbort).bind fun scope =>
    accepts_set.bind fun _ => accepts_pure).congr fun before param' after => ?_
  constructor
  · rintro ⟨_, _, ⟨rfl, rfl⟩, scope, _, ⟨hdeclare, rfl⟩, _, _, rfl, hparam, rfl⟩
    exact ⟨scope, hdeclare, hparam, rfl⟩
  · rintro ⟨scope, hdeclare, rfl, rfl⟩
    exact ⟨_, _, ⟨rfl, rfl⟩, scope, _, ⟨hdeclare, rfl⟩, (), _, rfl, rfl, rfl⟩

/-- A declared parameter is brought into force like a variable. -/
theorem Bindings.Models.enter {method : MethodContext} {E : Source.Env}
    (h : b.Models decls cls method E) {param : ParamDef} {x : SymbolId}
    (hparam : param.DeclaredAt b x) {τ : Source.Ty} (hty : (b.table.typeOf x).Means decls τ)
    {scope : Scope} (hdeclare : b.scope.declareLocal param.name x param.span = .ok scope) :
    Bindings.Models decls cls { b with scope } method
      { E with block := (param.name, τ) :: E.block } := by
  obtain ⟨layer, layers, hrepresents, hlayer, hlayers⟩ := h.layers
  obtain ⟨-, hclasses, hmembers, -⟩ := Scope.declareLocal_eq hdeclare
  exact h.rescope hclasses hmembers (hrepresents.of_declareLocal hdeclare)
    (.cons ⟨rfl, ⟨_, hparam.kind, rfl⟩, hty⟩ hlayer) hlayers

namespace ParamDef

/-- Parameters have the types that are written. -/
theorem exists_types (h : b.Knows decls) {params : List ParamDef} {ids : List SymbolId}
    (hparams : List.Forall₂ (DeclaredAt b) params ids) : ∃ types,
      List.Forall₂ (fun param τ => Source.Denotes (decls.map ClassDef.sig) param.type τ) params types ∧
        List.Forall₂ (fun x τ => (b.table.typeOf x).Means decls τ) ids types := by
  induction hparams with
  | nil => exact ⟨[], .nil, .nil⟩
  | cons hparam _ ih =>
    obtain ⟨τ, hmeans, hdenotes⟩ := (h.resolve_corresponds _).sound _ hparam.type
    obtain ⟨types, hdenote, hmean⟩ := ih
    exact ⟨τ :: types, .cons hdenotes hdenote, .cons hmeans hmean⟩

theorem enter_appends (param : ParamDef) (b : Bindings) : (param.enter b).Ensures fun _ => True :=
  (enter_ensures param b).appends

/-- The environment after the parameters, which are variables of the innermost block. -/
def entered (E : Source.Env) (params : List ParamDef) (types : List Source.Ty) : Source.Env :=
  { E with block := ((params.map (·.name)).zip types).reverse ++ E.block }

/-- The names of the parameters are new and different. -/
def Fresh (E : Source.Env) (params : List ParamDef) : Prop :=
  (params.map (·.name)).Nodup ∧ ∀ param ∈ params, E.block.lookup param.name = none

/-- Parameters are fresh one after the other, each with those before it in force. -/
theorem fresh_cons_iff {E : Source.Env} {param : ParamDef} {rest : List ParamDef} {τ : Source.Ty} :
    Fresh E (param :: rest) ↔ E.block.lookup param.name = none ∧
      Fresh { E with block := (param.name, τ) :: E.block } rest := by
  have hlookup : ∀ other : ParamDef, List.lookup other.name ((param.name, τ) :: E.block) = none ↔
      other.name ≠ param.name ∧ E.block.lookup other.name = none := by
    intro other
    rw [List.lookup_cons]
    by_cases heq : other.name = param.name
    · simp [heq]
    · simp [heq, beq_eq_false_iff_ne.2 heq]
  simp only [Fresh, List.map_cons, List.nodup_cons, List.mem_map, not_exists, not_and,
    List.forall_mem_cons, hlookup, forall_and]
  constructor
  · rintro ⟨⟨hnew, hnodup⟩, hparam, hrest⟩
    exact ⟨hparam, hnodup, hnew, hrest⟩
  · rintro ⟨hparam, hnodup, hnew, hrest⟩
    exact ⟨⟨hnew, hnodup⟩, hparam, hrest⟩

/-- Parameters are brought into force exactly if their names are new and different. -/
theorem enterAll_corresponds {method : MethodContext} : (params : List ParamDef) →
    {ids : List SymbolId} → {types : List Source.Ty} → {b : Bindings} → {E : Source.Env} →
    List.Forall₂ (DeclaredAt b) params ids →
    List.Forall₂ (fun x τ => (b.table.typeOf x).Means decls τ) ids types →
    b.Models decls cls method E →
    Corresponds (fun result E' => result.1 = params ∧ result.2.table = b.table ∧
        result.2.builtins = b.builtins ∧ result.2.scope.classes = b.scope.classes ∧
        result.2.Models decls cls method E')
      (Check.Passes (each enter params b)) (fun E' => Fresh E params ∧ E' = entered E params types)
  | [], _, _, b, E, hparams, htypes, h => by
    cases hparams
    cases htypes
    constructor
    · rintro result hpasses
      obtain ⟨hresult, hsame⟩ := (accepts_pure.iff b result.1 result.2).1 hpasses
      rw [hsame]
      exact ⟨E, ⟨hresult, rfl, rfl, rfl, h⟩, ⟨List.nodup_nil, nofun⟩, rfl⟩
    · rintro _ ⟨-, rfl⟩
      exact ⟨([], b), ⟨rfl, rfl, rfl, rfl, h⟩, rfl⟩
  | param :: rest, _, _, b, E, hparams, htypes, h => by
    cases hparams with
    | @cons _ x _ ids hparam hparams =>
    cases htypes with
    | @cons _ τ _ types hty htypes =>
    have hnext : ∀ {scope}, b.scope.declareLocal param.name x param.span = .ok scope →
        scope.classes = b.scope.classes ∧ _ := fun {scope} hdeclare => by
      obtain ⟨-, hclasses, -⟩ := Scope.declareLocal_eq hdeclare
      have hadds : b.table.AddsVariables .localVar false ({ b with scope } : Bindings).table :=
        .refl rfl false _
      have hgrows : b.Grows { b with scope } := hadds.grows rfl hclasses
      exact ⟨hclasses, enterAll_corresponds rest (hparams.imp fun _ _ => hgrows.param) htypes
        (h.enter hparam hty hdeclare)⟩
    have hentered : entered { E with block := (param.name, τ) :: E.block } rest types =
        entered E (param :: rest) (τ :: types) := by
      simp [entered]
    constructor
    · rintro ⟨params', after⟩ hpasses
      obtain ⟨_, _, hfirst, rest', hrest, rfl⟩ := (passes_each_cons enter_appends).1 hpasses
      obtain ⟨scope, hdeclare, rfl, rfl⟩ := ((accepts_enter hparam.bound).iff _ _ _).1 hfirst
      obtain ⟨hclasses, hnext⟩ := hnext hdeclare
      obtain ⟨E', ⟨rfl, htable, hbuiltins, hclasses', hmodels⟩, hfresh, rfl⟩ := hnext.sound _ hrest
      refine ⟨_, ⟨rfl, htable, hbuiltins, hclasses'.trans hclasses, hmodels⟩, ?_, hentered⟩
      exact fresh_cons_iff.2 ⟨(h.declareLocal_iff _ x _).1 ⟨scope, hdeclare⟩, hfresh⟩
    · rintro _ ⟨hfresh, rfl⟩
      obtain ⟨hparam', hfresh⟩ := fresh_cons_iff.1 hfresh
      obtain ⟨scope, hdeclare⟩ := (h.declareLocal_iff _ x param.span).2 hparam'
      obtain ⟨hclasses, hnext⟩ := hnext hdeclare
      obtain ⟨⟨rest', after⟩, ⟨rfl, htable, hbuiltins, hclasses', hmodels⟩, hrest⟩ :=
        hnext.complete _ ⟨hfresh, rfl⟩
      refine ⟨(param :: rest', after),
        ⟨rfl, htable, hbuiltins, hclasses'.trans hclasses, hentered ▸ hmodels⟩, ?_⟩
      exact (passes_each_cons enter_appends).2 ⟨param, _,
        ((accepts_enter hparam.bound).iff _ _ _).2 ⟨scope, hdeclare, rfl, rfl⟩, rest', hrest, rfl⟩

end ParamDef

namespace MethodDef

variable {c m : SymbolId} {method method' : MethodDef} {after : Bindings}

theorem analyze_appends (c : SymbolId) (method : MethodDef) (b : Bindings) :
    (method.analyze c b).Ensures fun _ => True :=
  (analyze_ensures false false c method b).appends

/-- The surroundings of the body of a declared method. -/
def context (method : MethodDef) (c m : SymbolId) (table : SymbolTable) : MethodContext where
  cls := c
  isStatic := method.modifiers.isStatic
  returnTy := table.typeOf m

/-- A method passes if its parameters can be entered, its body passes after them, and it does not
    run past its end without a result. -/
theorem passes_analyze (hbound : method.binding = some m) : (method.analyze c).Passes b method' after ↔
    ∃ params mid, (each ParamDef.enter method.params).Passes
      { b with scope := b.scope.enterMethod } params mid ∧
    ∃ body, (Stmt.analyzeAll (method.context c m mid.table) method.body).Passes mid body after ∧
      Typing.methodEnd { method with params, body } (mid.table.typeOf m) = [] ∧
        method' = { method with params, body } := by
  unfold analyze
  rw [hbound]
  have hparams : (each ParamDef.enter method.params).Accepts _ :=
    accepts_passes (ParamDef.enterAll_ensures method.params)
  have hbody := fun context => accepts_passes (Stmt.analyzeAll_ensures false context method.body)
  refine ((accepts_onScope.bind fun _ => (hparams.within _).bind fun params => accepts_get.bind
    fun bindings => ((hbody _).within _).bind fun body => accepts_report.bind fun _ =>
      accepts_pure).iff b method' after).trans ?_
  constructor
  · rintro ⟨_, _, rfl, params, _, hparams, _, mid, ⟨rfl, rfl⟩, body, _, hbody, _, _, ⟨hend, rfl⟩, rfl, rfl⟩
    exact ⟨params, mid, hparams, body, hbody, hend, rfl⟩
  · rintro ⟨params, mid, hparams, body, hbody, hend, rfl⟩
    exact ⟨(), _, rfl, params, mid, hparams, _, _, ⟨rfl, rfl⟩, body, after, hbody, (), _,
      ⟨hend, rfl⟩, rfl, rfl⟩

/-- Before its body the names in force are those of the class alone. -/
theorem models_start (h : b.WithMembers decls cls) (hmem : cls ∈ decls) (hbound : cls.binding = some c)
    (m : SymbolId) {τ : Source.Ty} (hty : (b.table.typeOf m).Means decls τ) (method : MethodDef) :
    Bindings.Models decls cls { b with scope := b.scope.enterMethod } (method.context c m b.table)
      { classes := decls.map ClassDef.sig, cls := cls.sig, isStatic := method.modifiers.isStatic
        returnTy := τ, block := [], around := [] } where
  knows := h.knows.rescope rfl
  classes := rfl
  mem := hmem
  bound := hbound
  own := rfl
  members := h.members
  isStatic := rfl
  returnTy := hty
  layers := ⟨[], [], Scope.represents_enterMethod _, .nil, .nil⟩

/-- A method that has to return something never runs past its end, as it is analysed. -/
theorem methodEnd_eq_nil_iff {method : MethodDef} {body : List Stmt} {params : List ParamDef} {ty : Ty}
    (hsame : Stmt.eraseAll body = Stmt.eraseAll method.body)
    (hvoid : ty.isVoid = method.returnType.isVoid) :
    Typing.methodEnd { method with params, body } ty = [] ↔
      (method.returnType.isVoid = false → Source.ReturnsAll method.body) := by
  have hreturns : Stmt.allReturn body = Stmt.allReturn method.body := by
    rw [← Stmt.allReturn_erase body, hsame, Stmt.allReturn_erase]
  unfold Typing.methodEnd
  rw [hvoid, hreturns, ← Stmt.allReturn_iff]
  cases method.returnType.isVoid <;> cases Stmt.allReturn method.body <;> simp

/-- A method is analysed without a report exactly if it follows the rules. -/
theorem analyze_decides (hmem : cls ∈ decls) (hbound : cls.binding = some c) (hmethod : method ∈ cls.methods) :
    (method.analyze c).Decides (·.WithMembers decls cls)
      (Source.ValidMethod (decls.map ClassDef.sig) cls.sig method) := by
  suffices h : ∀ b, b.WithMembers decls cls →
      ((∃ method' after, (method.analyze c).Passes b method' after) ↔
        Source.ValidMethod (decls.map ClassDef.sig) cls.sig method) ∧
      ∀ method' after, (method.analyze c).Passes b method' after → after.WithMembers decls cls from
    ⟨fun b hb => (h b hb).1, fun b method' after hb => (h b hb).2 method' after⟩
  intro b hb
  obtain ⟨c', hdeclared⟩ := hb.knows.describes.declared cls hmem
  obtain rfl := Option.some.inj (hdeclared.bound.symm.trans hbound)
  obtain ⟨m, ids, hmethod⟩ := hdeclared.methods method hmethod
  obtain ⟨returnTy, hmeans, hdenotes⟩ := (hb.knows.resolve_corresponds _).sound _ hmethod.type
  obtain ⟨types, hwritten, htypes⟩ := ParamDef.exists_types hb.knows hmethod.params
  have hstart := models_start hb hmem hbound m hmeans method
  have hadds : b.table.AddsVariables .localVar false
      ({ b with scope := b.scope.enterMethod } : Bindings).table := .refl rfl false _
  have hgrows : b.Grows { b with scope := b.scope.enterMethod } := hadds.grows rfl rfl
  have hparams := ParamDef.enterAll_corresponds method.params
    (hmethod.params.imp fun _ _ => hgrows.param) htypes hstart
  have hfresh : (method.params.map (·.name)).Nodup ∧ (∀ param ∈ method.params,
      ([] : Source.Block).lookup param.name = none) ↔ (method.params.map (·.name)).Nodup :=
    and_iff_left fun _ _ => rfl
  have hend : ∀ body, Stmt.eraseAll body = Stmt.eraseAll method.body →
      (Typing.methodEnd { method with body } (b.table.typeOf m) = [] ↔
        (method.returnType.isVoid = false → Source.ReturnsAll method.body)) := fun body hsame =>
    methodEnd_eq_nil_iff hsame (TypeExpr.isVoid_of_resolve hmethod.type)
  have hkeeps := fun mid => Stmt.analyzeAll_keeps (method.context c' m b.table) method.body mid trivial
  refine ⟨⟨?_, fun ⟨hnodup, hvalid, hreturns⟩ => ?_⟩, fun method' after hpasses => ?_⟩
  · rintro ⟨method', after, hpasses⟩
    obtain ⟨params, mid, hpassed, body, hbody, hreturns, rfl⟩ := (passes_analyze hmethod.bound).1 hpasses
    obtain ⟨_, ⟨rfl, htable, -, -, hmodels⟩, hnew, rfl⟩ := hparams.sound _ hpassed
    rw [htable] at hbody hreturns
    obtain ⟨_, -, block, hvalid, -⟩ :=
      ((Stmt.analyzeAll_follows method.body).corresponds ⟨hmodels, rfl⟩).sound _ hbody
    refine ⟨hfresh.1 hnew, ⟨returnTy, types, block, hdenotes, hwritten, ?_⟩,
      (hend body ((hkeeps mid).ok hbody)).1 hreturns⟩
    simpa [ParamDef.entered] using hvalid
  · obtain ⟨returnTy', types', block, hdenotes', hwritten', hvalid⟩ := hvalid
    obtain rfl := hdenotes.unique hdenotes'
    obtain rfl := Source.Denotes.unique_types hwritten hwritten'
    obtain ⟨⟨params, mid⟩, ⟨rfl, htable, -, -, hmodels⟩, hpassed⟩ :=
      hparams.complete _ ⟨hfresh.2 hnodup, rfl⟩
    have hbody := (Stmt.analyzeAll_follows method.body).corresponds (b := mid) ⟨hmodels, rfl⟩
    obtain ⟨⟨body, after⟩, -, hbody⟩ :=
      hbody.complete _ ⟨block, by simpa [ParamDef.entered] using hvalid, rfl⟩
    refine ⟨_, after, (passes_analyze hmethod.bound).2 ⟨_, mid, hpassed, body, ?_, ?_, rfl⟩⟩
    · rw [htable]
      exact hbody
    · rw [htable]
      exact (hend body ((hkeeps mid).ok hbody)).2 hreturns
  · obtain ⟨params, mid, hpassed, body, hbody, -⟩ := (passes_analyze hmethod.bound).1 hpasses
    obtain ⟨_, ⟨-, htable, -, -, hmodels⟩, -, rfl⟩ := hparams.sound _ hpassed
    rw [htable] at hbody
    obtain ⟨_, htracks, -⟩ :=
      ((Stmt.analyzeAll_follows method.body).corresponds ⟨hmodels, rfl⟩).sound _ hbody
    exact ⟨htracks.models.knows, htracks.models.members⟩

end MethodDef

namespace ClassDef

variable {c : SymbolId} {cls' : ClassDef} {after : Bindings}

theorem analyze_appends (cls : ClassDef) (b : Bindings) : (cls.analyze b).Ensures fun _ => True :=
  (analyze_ensures false false cls b).appends

/-- A class passes if all its methods do, with its members in scope. -/
theorem passes_analyze (hbound : cls.binding = some c) {info : ClassInfo}
    (hinfo : b.table.kind? c = some (.cls info)) : cls.analyze.Passes b cls' after ↔
      ∃ methods, (each (MethodDef.analyze c) cls.methods).Passes
        { b with scope := b.scope.enterClass info.members } methods after ∧
          cls' = { cls with methods } := by
  have hsome : (b.table.classInfo? c).getD {} = info := by
    simp [SymbolTable.classInfo?_eq_some_iff.2 hinfo]
  unfold analyze
  rw [hbound]
  have hmethods : (each (MethodDef.analyze c) cls.methods).Accepts _ :=
    accepts_passes (MethodDef.analyzeAll_ensures false false c cls.methods)
  refine ((accepts_get.bind fun bindings => accepts_onScope.bind fun _ => (hmethods.within _).bind
    fun methods => accepts_pure).iff b cls' after).trans ?_
  constructor
  · rintro ⟨_, _, ⟨rfl, rfl⟩, _, _, rfl, methods, _, hmethods, rfl, rfl⟩
    rw [hsome] at hmethods
    exact ⟨methods, hmethods, rfl⟩
  · rintro ⟨methods, hmethods, rfl⟩
    rw [← hsome] at hmethods
    exact ⟨_, _, ⟨rfl, rfl⟩, (), _, rfl, methods, after, hmethods, rfl, rfl⟩

/-- The methods of a class are analysed without a report exactly if they follow the rules. -/
theorem analyze_decides (hmem : cls ∈ decls) : cls.analyze.Decides (·.Knows decls)
    (∀ method ∈ cls.methods, Source.ValidMethod (decls.map ClassDef.sig) cls.sig method) := by
  suffices h : ∀ b, b.Knows decls → ((∃ cls' after, cls.analyze.Passes b cls' after) ↔
      ∀ method ∈ cls.methods, Source.ValidMethod (decls.map ClassDef.sig) cls.sig method) ∧
        ∀ cls' after, cls.analyze.Passes b cls' after → after.Knows decls from
    ⟨fun b hb => (h b hb).1, fun b cls' after hb => (h b hb).2 cls' after⟩
  intro b hb
  obtain ⟨c, hdeclared⟩ := hb.describes.declared cls hmem
  obtain ⟨info, hinfo, hhas⟩ := hdeclared.info
  have hstart : Bindings.WithMembers decls cls { b with scope := b.scope.enterClass info.members } :=
    ⟨hb.rescope rfl, hhas.members⟩
  have hmethods := decides_each (MethodDef.analyze_appends c) cls.methods fun method hmethod =>
    MethodDef.analyze_decides hmem hdeclared.bound hmethod
  rw [← hmethods.iff _ hstart]
  refine ⟨?_, fun cls' after hpasses => ?_⟩
  · constructor
    · rintro ⟨_, after, hpasses⟩
      obtain ⟨methods, hmethods, -⟩ := (passes_analyze hdeclared.bound hinfo).1 hpasses
      exact ⟨methods, after, hmethods⟩
    · rintro ⟨methods, after, hmethods⟩
      exact ⟨_, after, (passes_analyze hdeclared.bound hinfo).2 ⟨methods, hmethods, rfl⟩⟩
  · obtain ⟨methods, hpassed, -⟩ := (passes_analyze hdeclared.bound hinfo).1 hpasses
    exact (hmethods.keeps _ methods after hstart hpassed).knows

end ClassDef

end SmallJava
