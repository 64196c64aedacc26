import SmallJava.Proofs.Scoping.Judgement
import SmallJava.Proofs.Typing.Growth

namespace SmallJava

/-- What names mean in the environment is what the text around says. -/
structure Names.Explains (names : Names) (env : Env) : Prop where
  symbols : ∀ name x, env.symbolNamed name = .ok x → names.find? name.name = some x
  classes : ∀ name c, env.scope.class? name = some c → names.classes.lookup name = some c

/-- A name that may be used denotes what the scope finds for it, and not the variable whose
    initial value it stands in. -/
theorem Env.lookup_of_symbolNamed {env : Env} {name : Ident} {x : SymbolId}
    (hx : env.symbolNamed name = .ok x) :
    ∃ found, env.scope.lookup name.name = some found ∧ found.symbol = x ∧ env.initializing ≠ some x := by
  unfold symbolNamed at hx
  split at hx
  next => cases hx
  next found hfound =>
  split at hx
  next => cases hx
  next hother =>
  obtain rfl : found.symbol = x := by
    split at hx
    next =>
      split at hx
      next => cases hx
      next => exact Except.ok.inj hx
    next => exact Except.ok.inj hx
  exact ⟨found, hfound, rfl, hother⟩

section Expressions

open Check

variable {names : Names} {env : Env}

/-- The names of a path are bound to what they denote. -/
theorem Reference.analyze_scoped (h : names.Explains env) {ref ref' : Reference} {ty : Ty}
    (hfound : ref.analyze env = .ok (ref', ty)) : ref'.Scoped names := by
  induction ref generalizing ref' ty with
  | this annot =>
    unfold analyze at hfound
    split at hfound
    next => cases hfound
    next =>
    cases hfound
    trivial
  | ident annot name =>
    unfold analyze at hfound
    split at hfound
    next => cases hfound
    next x hx =>
    cases hfound
    exact ⟨x, rfl, h.symbols name x hx⟩
  | member annot owner name ih =>
    unfold analyze at hfound
    split at hfound
    next => cases hfound
    next owner' ownerTy howner =>
    split at hfound
    next => cases hfound
    next x hx =>
    cases hfound
    have hscoped := ih howner
    exact hscoped

theorem Reference.check_scoped {ν : Type} (h : names.Explains env) (rebuild : Reference → ν)
    (ref : Reference) :
    (ref.check env rebuild).Yields (fun found => found.1.Scoped names) fun _ => True := by
  unfold check
  cases hanalyze : ref.analyze env with
  | ok found => exact yields_pure (analyze_scoped h hanalyze)
  | error found => exact yields_abort trivial

/-- The names of a call and of its arguments are bound to what they denote. -/
theorem Typing.checkCall_scoped (h : names.Explains env) (span : Span) (callee : Reference)
    (args : List Expr) {checkArgs : Check (List Expr) (List (Expr × Ty))}
    (hargs : checkArgs.Yields (fun found => Expr.AllScoped names (found.map (·.1))) fun _ => True) :
    (checkCall env span callee args checkArgs).Yields
      (fun found => found.1.Scoped names ∧ Expr.AllScoped names found.2.1) fun _ => True := by
  refine (callee.check_scoped h _).bind fun ⟨callee', _⟩ hcallee => ?_
  refine (Yields.within hargs).bind fun args' hargs => ?_
  exact yields_concluded fun _ _ => ⟨hcallee, hargs⟩

namespace Expr

mutual

/-- Analysis binds every bare name in an expression to what it denotes. -/
theorem analyze_scoped (h : names.Explains env) : (expr : Expr) →
    (analyze env expr).Yields (fun found => found.1.Scoped names) fun _ => True
  | int .. | bool .. | null .. => yields_pure trivial
  | unary annot op operand => by
    have hoperand := analyze_scoped h operand
    refine (Yields.within hoperand).bind fun operand' hoperand => ?_
    exact yields_concluded fun _ _ => hoperand
  | binary annot op left right => by
    have hleft := analyze_scoped h left
    have hright := analyze_scoped h right
    refine (Yields.within hleft).bind fun left' hleft => ?_
    refine (Yields.within hright).bind fun right' hright => ?_
    exact yields_concluded fun _ _ => ⟨hleft, hright⟩
  | ternary annot cond onTrue onFalse => by
    have hcond := analyze_scoped h cond
    have hTrue := analyze_scoped h onTrue
    have hFalse := analyze_scoped h onFalse
    refine (Yields.within hcond).bind fun cond' hcond => ?_
    refine yields_report.bind fun _ _ => ?_
    refine (Yields.within hTrue).bind fun onTrue' hTrue => ?_
    refine (Yields.within hFalse).bind fun onFalse' hFalse => ?_
    exact yields_concluded fun _ _ => ⟨hcond, hTrue, hFalse⟩
  | ref annot target => by
    refine (target.check_scoped h _).bind fun target' htarget => ?_
    exact yields_concluded fun _ _ => htarget
  | index annot target subscript => by
    have hsubscript := analyze_scoped h subscript
    refine (target.check_scoped h _).bind fun target' htarget => ?_
    refine (Yields.within hsubscript).bind fun subscript' hsubscript => ?_
    refine yields_conclude.bind fun _ _ => ?_
    exact yields_reported ⟨htarget, hsubscript⟩
  | call annot callee args => by
    have hcall := Typing.checkCall_scoped h annot.span callee args (analyzeAll_scoped h args)
    exact (Yields.within hcall).bind fun _ hcall => yields_pure hcall
  | newObject annot cls => by
    unfold analyze
    split
    next => exact yields_abort trivial
    next c hc => exact yields_pure ⟨c, rfl, h.classes _ _ hc⟩
  | newArray annot elem size => by
    have hsize := analyze_scoped h size
    refine (yields_orAbort trivial).bind fun elemTy _ => ?_
    refine (Yields.within hsize).bind fun size' hsize => ?_
    exact yields_reported hsize

/-- The names of the arguments of a call are bound to what they denote. -/
theorem analyzeAll_scoped (h : names.Explains env) : (args : List Expr) →
    (analyzeAll env args).Yields (fun found => AllScoped names (found.map (·.1))) fun _ => True
  | [] => yields_pure trivial
  | arg :: rest => by
    have harg := analyze_scoped h arg
    have hrest := analyzeAll_scoped h rest
    refine (Yields.within harg).bind fun _ harg => ?_
    refine (Yields.within hrest).bind fun _ hrest => ?_
    exact yields_pure ⟨harg, hrest⟩

end

end Expr

end Expressions

/-- Local variables are added, and besides them only names within a method change. -/
structure Bindings.AddsLocals (before after : Bindings) : Prop where
  table : before.table.AddsLocals false after.table
  builtins : after.builtins = before.builtins
  classes : after.scope.classes = before.scope.classes
  members : after.scope.members = before.scope.members

theorem Bindings.AddsLocals.refl (b : Bindings) : b.AddsLocals b :=
  ⟨.refl rfl false _, rfl, rfl, rfl⟩

theorem Bindings.AddsLocals.trans {b₁ b₂ b₃ : Bindings} (h : b₁.AddsLocals b₂) (h' : b₂.AddsLocals b₃) :
    b₁.AddsLocals b₃ :=
  ⟨h.table.trans h'.table, h'.builtins.trans h.builtins, h'.classes.trans h.classes,
    h'.members.trans h.members⟩

namespace Names

/-- The blocks around with the parameters, which share a layer with the outermost block. -/
def stack (params : Layer) : Layers → Layers
  | [] => []
  | [top] => [top ++ params]
  | layer :: rest => layer :: stack params rest

/-- A name denotes the innermost local variable, or else the parameter. -/
theorem find?_stack (params : Layer) {locals : Layers} (hlocals : locals ≠ []) (name : String) :
    (stack params locals).find? name = (locals.find? name).or (params.lookup name) := by
  induction locals with
  | nil => exact absurd rfl hlocals
  | cons layer rest ih =>
    cases rest with
    | nil => simp [stack, Layers.find?, List.lookup_append]
    | cons next rest =>
      have ih := ih (by simp)
      unfold Layers.find? at ih ⊢
      rw [stack, List.findSome?_cons, List.findSome?_cons, ih]
      cases layer.lookup name <;> rfl
      simp

theorem stack_cons (params layer : Layer) {rest : Layers} (hrest : rest ≠ []) :
    stack params (layer :: rest) = layer :: stack params rest := by
  cases rest with
  | nil => exact absurd rfl hrest
  | cons next rest => rfl

theorem exists_stack_eq_cons (params : Layer) {locals : Layers} (hlocals : locals ≠ []) :
    ∃ layer rest, stack params locals = layer :: rest := by
  match locals with
  | [] => exact absurd rfl hlocals
  | [_] | _ :: _ :: _ => exact ⟨_, _, rfl⟩

theorem stack_declare (params : Layer) (locals : Layers) (name : String) (x : SymbolId) :
    stack params (locals.declare name x) = (stack params locals).declare name x := by
  match locals with
  | [] | [_] | _ :: _ :: _ => rfl

/-- A declaration changes what its name denotes, and nothing else. -/
theorem find?_declare {names : Names} (hnonempty : names.locals ≠ []) (name : String) (x : SymbolId)
    (other : String) :
    (names.declare name x).find? other = if other = name then some x else names.find? other := by
  obtain ⟨locals, params, members, classes⟩ := names
  cases locals with
  | nil => exact absurd rfl hnonempty
  | cons layer rest =>
    unfold find? declare Layers.declare Layers.find?
    dsimp only
    rw [List.findSome?_cons, List.findSome?_cons, List.lookup_cons]
    by_cases heq : other = name
    · simp [heq]
    · rw [beq_false_of_ne heq, if_neg heq]

theorem mem_symbols_declare {names : Names} {name : String} {x y : SymbolId}
    (hmem : y ∈ (names.declare name x).symbols) : y = x ∨ y ∈ names.symbols := by
  obtain ⟨locals, params, members, classes⟩ := names
  cases locals with
  | nil => exact .inr hmem
  | cons layer rest => simpa [symbols, declare, Layers.declare] using hmem

/-- The names are those in force. -/
structure InForce (names : Names) (b : Bindings) : Prop where
  nonempty : names.locals ≠ []
  represents : b.scope.Represents (stack names.params names.locals)
  members : ∀ name, b.scope.members.get? name = names.members.lookup name
  classes : ∀ name, b.scope.classes.get? name = names.classes.lookup name
  below : ∀ x ∈ names.symbols, x.index < b.table.size

namespace InForce

variable {names inner : Names} {b : Bindings}

/-- A name means what the scope finds for it. -/
theorem find? (h : names.InForce b) (name : String) :
    names.find? name = (b.scope.lookup name).map Resolved.symbol := by
  unfold Names.find? Scope.lookup
  rw [← find?_stack _ h.nonempty, ← h.represents.find?, ← h.members, ← h.classes]
  cases b.scope.locals.get? name with
  | some entry => rfl
  | none =>
    cases b.scope.members.get? name with
    | some x => rfl
    | none => cases b.scope.classes.get? name <;> rfl

/-- Names in force explain what bare names denote in a method. -/
theorem explains (h : names.InForce b) (method : MethodContext) :
    names.Explains (b.env method) where
  symbols := by
    intro name x hx
    obtain ⟨found, hfound, rfl, -⟩ := Env.lookup_of_symbolNamed hx
    rw [h.find?]
    exact congrArg (Option.map Resolved.symbol) hfound
  classes := by
    intro name c hc
    rw [← h.classes]
    exact hc

theorem enter (h : names.InForce b) :
    names.enter.InForce { b with scope := b.scope.push } where
  nonempty := List.cons_ne_nil _ _
  represents := by
    rw [Names.enter, stack_cons _ _ h.nonempty]
    exact h.represents.push
  members := h.members
  classes := h.classes
  below := h.below

/-- A new variable is in force from its declaration on. -/
theorem declare (h : names.InForce b) {name : String} {span : Span} {scope' : Scope}
    (kind : SymbolKind) (ty : Ty) (hdeclare : b.scope.declareLocal name b.table.nextId span = .ok scope') :
    (names.declare name b.table.nextId).InForce
      { b with table := b.table.add name kind ty span, scope := scope' } := by
  obtain ⟨-, hclasses, hmembers, -⟩ := Scope.declareLocal_eq hdeclare
  refine ⟨?_, ?_, fun other => ?_, fun other => ?_, fun x hmem => ?_⟩
  · have hnonempty := h.nonempty
    cases hlocals : names.locals with
    | nil => exact absurd hlocals hnonempty
    | cons => simp [Names.declare, Layers.declare, hlocals]
  · have hrepresents := h.represents
    dsimp only [Names.declare]
    rw [stack_declare]
    obtain ⟨layer, rest, hstack⟩ := exists_stack_eq_cons names.params h.nonempty
    rw [hstack] at hrepresents ⊢
    have hdeclared := hrepresents.declareLocal name b.table.nextId span
    split at hdeclared
    next =>
      rw [hdeclare] at hdeclared
      cases hdeclared
    next =>
      obtain ⟨found, hfound, hdeclared⟩ := hdeclared
      obtain rfl := Except.ok.inj (hdeclare.symm.trans hfound)
      exact hdeclared
  · rw [hmembers]
    exact h.members other
  · rw [hclasses]
    exact h.classes other
  · rw [SymbolTable.size_add]
    obtain rfl | hmem := mem_symbols_declare hmem
    · exact Nat.lt_succ_self _
    · exact Nat.lt_succ_of_lt (h.below x hmem)

/-- In its own initial value a variable is not in force. -/
theorem explains_initial (h : names.InForce b) (method : MethodContext) {name : String} {span : Span}
    {scope' : Scope} (kind : SymbolKind) (ty : Ty)
    (hdeclare : b.scope.declareLocal name b.table.nextId span = .ok scope') :
    names.Explains { Bindings.env { b with table := b.table.add name kind ty span, scope := scope' }
      method with initializing := some b.table.nextId } where
  symbols := by
    intro other x hx
    obtain ⟨found, hfound, rfl, hne⟩ := Env.lookup_of_symbolNamed hx
    have hafter := (h.declare kind ty hdeclare).find? other.name
    rw [find?_declare h.nonempty] at hafter
    have hfound : scope'.lookup other.name = some found := hfound
    rw [hfound] at hafter
    split at hafter
    next => exact absurd hafter hne
    next => exact hafter
  classes := by
    intro other c hc
    obtain ⟨-, hclasses, -, -⟩ := Scope.declareLocal_eq hdeclare
    rw [← h.classes, ← hclasses]
    exact hc

end InForce

/-- One block further in. -/
def Around (names inner : Names) : Prop := ∃ layer, inner = { names with locals := layer :: names.locals }

namespace Around

variable {names inner : Names}

theorem enter (names : Names) : names.Around names.enter := ⟨[], rfl⟩

theorem namesAfter (h : names.Around inner) (stmt : Stmt) : names.Around (stmt.namesAfter inner) := by
  obtain ⟨layer, rfl⟩ := h
  cases stmt with
  | varDecl _ var _ =>
    cases hbound : var.binding with
    | none => exact ⟨layer, by simp [Stmt.namesAfter, hbound]⟩
    | some x => exact ⟨(var.name, x) :: layer, by simp [Stmt.namesAfter, hbound, declare, Layers.declare]⟩
  | _ => exact ⟨layer, rfl⟩

theorem optionNamesAfter (h : names.Around inner) (stmt : Option Stmt) :
    names.Around (Stmt.optionNamesAfter inner stmt) := by
  cases stmt with
  | none => exact h
  | some stmt => exact h.namesAfter stmt

theorem allNamesAfter (h : names.Around inner) (stmts : List Stmt) :
    names.Around (stmts.foldl Stmt.namesAfter inner) := by
  induction stmts generalizing inner with
  | nil => exact h
  | cons stmt rest ih => exact ih (h.namesAfter stmt)

/-- At the end of a block, the names around it are in force again. -/
theorem leave (h : names.Around inner) (hnonempty : names.locals ≠ []) {b : Bindings}
    (hinner : inner.InForce b) : names.InForce { b with scope := b.scope.pop } := by
  obtain ⟨layer, rfl⟩ := h
  obtain ⟨-, hrepresents, hmembers, hclasses, hbelow⟩ := hinner
  refine ⟨hnonempty, ?_, hmembers, hclasses, fun x hmem => hbelow x ?_⟩
  · have hpop := hrepresents.pop
    rw [stack_cons _ _ hnonempty] at hpop
    obtain ⟨outer, rest, hstack⟩ := exists_stack_eq_cons names.params hnonempty
    rwa [hstack] at hpop ⊢
  · unfold symbols at hmem ⊢
    rw [List.flatten_cons, List.append_assoc, List.append_assoc, List.append_assoc, List.map_append]
    exact List.mem_append_right _ (by simpa using hmem)

end Around

end Names

namespace Stmt

open Walk

variable {names : Names} {start : Bindings}

/-- What analysis of bodies keeps: the names are those in force, and since the start nothing but
    local variables was added. -/
def Here (start : Bindings) (names : Names) (b : Bindings) : Prop :=
  names.InForce b ∧ start.AddsLocals b

theorem Here.onScope {names' : Names} {b : Bindings} (h : Here start names b) {f : Scope → Scope}
    (hclasses : (f b.scope).classes = b.scope.classes) (hmembers : (f b.scope).members = b.scope.members)
    (hforce : names'.InForce { b with scope := f b.scope }) :
    Here start names' { b with scope := f b.scope } :=
  ⟨hforce, h.2.trans ⟨.refl rfl false _, rfl, hclasses, hmembers⟩⟩

theorem Here.enter {b : Bindings} (h : Here start names b) :
    Here start names.enter { b with scope := b.scope.push } :=
  h.onScope rfl rfl h.1.enter

theorem Here.leave {inner : Names} {b : Bindings} (h : Here start inner b)
    (haround : names.Around inner) (hnonempty : names.locals ≠ []) :
    Here start names { b with scope := b.scope.pop } :=
  h.onScope rfl rfl (haround.leave hnonempty h.1)

theorem yields_inEnv {ν α : Type} {method : MethodContext} {part : Env → Check ν α} {Q : α → Prop}
    (h : ∀ env, names.Explains env → (part env).Yields Q fun _ => True) :
    Yields (Here start names) (inEnv method part) (fun a b => Q a ∧ Here start names b) fun _ => True :=
  Yields.get_bind fun _ hb => (yields_lift (h _ (hb.1.explains method))).weaken (fun _ => id)
    (fun _ _ h => ⟨h.1, h.2 ▸ hb⟩) fun _ => id

/-- The names in the statement are bound, and it declares nothing for what follows it. -/
structure Settled (names : Names) (stmt : Stmt) : Prop where
  bound : stmt.Scoped names
  after : stmt.namesAfter names = names

theorem Settled.here {b : Bindings} {stmt : Stmt} (h : Settled names stmt)
    (hb : Here start names b) : stmt.Scoped names ∧ Here start (stmt.namesAfter names) b := by
  rw [h.after]
  exact ⟨h.bound, hb⟩

theorem analyzeAssign_scoped {env : Env} (h : names.Explains env) (span : Span) (target : Reference)
    (value : Expr) : (analyzeAssign span target value env).Yields (Settled names) fun _ => True := by
  refine (target.check_scoped h _).bind fun _ htarget => ?_
  refine (Check.Yields.within (value.analyze_scoped h)).bind fun _ hvalue => ?_
  exact Check.yields_reported ⟨⟨htarget, hvalue⟩, rfl⟩

/-- The names of an assignment to an array element are bound to what they denote. -/
theorem analyzeIndexAssign_scoped {env : Env} (h : names.Explains env) (span : Span)
    (target : Reference) (subscript value : Expr) :
    (analyzeIndexAssign span target subscript value env).Yields (Settled names) fun _ => True := by
  refine (target.check_scoped h _).bind fun _ htarget => ?_
  refine (Check.Yields.within (subscript.analyze_scoped h)).bind fun _ hsubscript => ?_
  refine (Check.Yields.within (value.analyze_scoped h)).bind fun _ hvalue => ?_
  refine Check.yields_conclude.bind fun _ _ => ?_
  refine Check.yields_report.bind fun _ _ => ?_
  exact Check.yields_reported ⟨⟨htarget, hsubscript, hvalue⟩, rfl⟩

theorem analyzeCall_scoped {env : Env} (h : names.Explains env) (span : Span) (callee : Reference)
    (args : List Expr) : (analyzeCall span callee args env).Yields (Settled names) fun _ => True := by
  have hcall := Typing.checkCall_scoped h span callee args (Expr.analyzeAll_scoped h args)
  refine (Check.Yields.within hcall).bind fun _ hcall => ?_
  exact Check.yields_pure ⟨hcall, rfl⟩

/-- The names of a return are bound to what they denote. -/
theorem analyzeReturn_scoped {env : Env} (h : names.Explains env) (span : Span) (value : Option Expr) :
    (analyzeReturn span value env).Yields (Settled names) fun _ => True := by
  cases value with
  | none => exact Check.yields_reported ⟨nofun, rfl⟩
  | some value =>
    refine (Check.Yields.within (value.analyze_scoped h)).bind fun _ hvalue => ?_
    refine Check.yields_reported ⟨?_, rfl⟩
    rintro _ ⟨⟩
    exact hvalue

theorem checkCondition_scoped {env : Env} (h : names.Explains env) (construct : String) (cond : Expr) :
    (cond.checkCondition construct env).Yields (·.Scoped names) fun _ => True := by
  refine (cond.analyze_scoped h).bind fun _ hcond => ?_
  exact Check.yields_reported hcond

theorem yields_condition {ν : Type} {method : MethodContext} {rebuild : Expr → ν} (construct : String)
    (cond : Expr) : Yields (Here start names)
      (within rebuild (inEnv method (cond.checkCondition construct)))
      (fun cond' b => cond'.Scoped names ∧ Here start names b) fun _ => True :=
  Yields.within (yields_inEnv fun _ h => checkCondition_scoped h construct cond)

/-- The names of a declaration statement are bound to what they denote, the declared variable
    included. -/
theorem analyzeVarDecl_scoped (method : MethodContext) (span : Span) (var : LocalDef) (init : Expr) :
    (analyzeVarDecl method span var init).Yields (Here start names)
      (fun stmt b => stmt.Scoped names ∧ Here start (stmt.namesAfter names) b) fun _ => True := by
  refine Yields.get_bind fun b hb => ?_
  refine (yields_lift (Check.yields_orAbort trivial)).bind fun ty => Yields.intro fun hresolve => ?_
  refine (yields_lift (Check.yields_orAbort trivial)).bind fun scope' => Yields.intro fun hdeclare => ?_
  obtain ⟨-, hclasses, hmembers, -⟩ := Scope.declareLocal_eq hdeclare
  have hadds : start.AddsLocals
      { b with table := b.table.add var.name .localVar ty var.span, scope := scope' } :=
    hb.2.trans ⟨.add rfl _ _ _ (TypeExpr.isWritten_of_resolve hresolve) nofun, rfl, hclasses, hmembers⟩
  have hinit := init.analyze_scoped (hb.1.explains_initial method .localVar ty hdeclare)
  refine (yields_set (Q := fun _ => (· = _)) rfl).bind fun _ => ?_
  refine (yields_lift (Check.Yields.within hinit)).bind ?_
  rintro ⟨init', initTy⟩
  refine Yields.intro fun hscoped => ?_
  refine yields_report.bind fun _ => yields_pure ?_
  rintro _ rfl
  refine ⟨⟨hscoped, _, rfl, fun hmem => ?_⟩, hb.1.declare _ _ hdeclare, hadds⟩
  exact Nat.lt_irrefl _ (hb.1.below _ hmem)

theorem yields_enter {ν α : Type} {part : Walk ν α} {Q : α → Bindings → Prop} {L : ν → Prop}
    (h : part.Yields (Here start names.enter) Q L) :
    Yields (Here start names) (do onScope Scope.push; part) Q L :=
  (yields_onScope (Q := fun _ => Here start names.enter) fun _ hb => hb.enter).bind fun _ => h

/-- The end of a block brings back the names around it, whatever the block declares. -/
theorem yields_leave {ν α : Type} {inner : Names} {a : α} {Q : α → Bindings → Prop} {L : ν → Prop}
    (haround : names.Around inner) (hnonempty : names.locals ≠ [])
    (h : ∀ b, Here start names b → Q a b) :
    Yields (Here start inner) (do onScope Scope.pop; pure a) Q L :=
  (yields_onScope (Q := fun _ => Here start names) fun _ hb => hb.leave haround hnonempty).bind
    fun _ => yields_pure h

/-- The names of a branch are bound in a block of its own, and what it declares ends there. -/
theorem analyzeBranch_scoped {stmt : Stmt} {analysis : Walk Stmt Stmt}
    (hnonempty : names.locals ≠ [])
    (h : analysis.Yields (Here start names.enter) (fun stmt' b => stmt'.Scoped names.enter ∧
      Here start (stmt'.namesAfter names.enter) b) fun _ => True) :
    (analyzeBranch stmt analysis).Yields (Here start names)
      (fun stmt' b => stmt'.Scoped names.enter ∧ Here start names b) fun _ => True := by
  refine yields_report.bind fun _ => yields_enter ?_
  refine Yields.bind h fun stmt' => Yields.intro fun hstmt => ?_
  have haround := (Names.Around.enter names).namesAfter stmt'
  exact yields_leave haround hnonempty fun _ hb => ⟨hstmt, hb⟩

/-- Where names are in force there is a block around. -/
theorem yields_here {ν α : Type} {part : Walk ν α} {Q : α → Bindings → Prop} {L : ν → Prop}
    (h : names.locals ≠ [] → part.Yields (Here start names) Q L) :
    part.Yields (Here start names) Q L :=
  fun b hb => h hb.1.nonempty b hb

/-- The names of the condition of a loop are bound to what they denote. -/
theorem yields_loopCondition {method : MethodContext} {rebuild : Option Expr → Stmt}
    (cond : Option Expr) : Yields (Here start names)
      (within rebuild (match cond with
        | none => pure none
        | some cond => some <$> within some (inEnv method (cond.checkCondition "for"))))
      (fun cond' b => (∀ expr ∈ cond', expr.Scoped names) ∧ Here start names b) fun _ => True := by
  refine Yields.within ?_
  cases cond with
  | none => exact yields_pure fun _ hb => ⟨nofun, hb⟩
  | some cond =>
    refine (yields_condition "for" cond).map fun cond' b hb => ⟨?_, hb.2⟩
    rintro _ ⟨⟩
    exact hb.1

mutual

/-- Analysis binds every bare name in a statement to what it denotes where it stands. -/
theorem analyze_scoped (method : MethodContext) (names : Names) :
    (stmt : Stmt) → (analyze method stmt).Yields (Here start names)
      (fun stmt' b => stmt'.Scoped names ∧ Here start (stmt'.namesAfter names) b) fun _ => True
  | block span stmts => by
    unfold analyze
    have hstmts := analyzeAll_scoped method names.enter stmts
    refine yields_here fun hnonempty => yields_enter ?_
    refine (Yields.within hstmts).bind fun stmts' => Yields.intro fun hstmts => ?_
    have haround := (Names.Around.enter names).allNamesAfter stmts'
    exact yields_leave haround hnonempty fun _ hb => ⟨hstmts, hb⟩
  | varDecl span var init => by
    unfold analyze
    exact analyzeVarDecl_scoped method span var init
  | assign span target value => by
    unfold analyze
    exact (yields_inEnv fun _ h => analyzeAssign_scoped h span target value).weaken
      (fun _ => id) (fun _ _ h => h.1.here h.2) fun _ => id
  | indexAssign span target subscript value => by
    unfold analyze
    exact (yields_inEnv fun _ h => analyzeIndexAssign_scoped h span target subscript value).weaken
      (fun _ => id) (fun _ _ h => h.1.here h.2) fun _ => id
  | call span callee args => by
    unfold analyze
    exact (yields_inEnv fun _ h => analyzeCall_scoped h span callee args).weaken
      (fun _ => id) (fun _ _ h => h.1.here h.2) fun _ => id
  | .return span value => by
    unfold analyze
    exact (yields_inEnv fun _ h => analyzeReturn_scoped h span value).weaken
      (fun _ => id) (fun _ _ h => h.1.here h.2) fun _ => id
  | ifElse span cond onTrue onFalse => by
    unfold analyze
    have hTrue := analyze_scoped method names.enter onTrue
    refine yields_here fun hnonempty => ?_
    refine (yields_condition "if" cond).bind fun cond' => Yields.intro fun hcond => ?_
    refine (Yields.within (analyzeBranch_scoped hnonempty hTrue)).bind fun onTrue' => ?_
    refine Yields.intro fun hTrue => ?_
    cases onFalse with
    | none => exact yields_pure fun _ hb => ⟨⟨hcond, hTrue, trivial⟩, hb⟩
    | some onFalse =>
      have hFalse := analyze_scoped method names.enter onFalse
      refine (Yields.within (analyzeBranch_scoped hnonempty hFalse)).bind fun onFalse' => ?_
      exact yields_pure fun _ hb => ⟨⟨hcond, hTrue, hb.1⟩, hb.2⟩
  | .while span cond body => by
    unfold analyze
    have hbody := analyze_scoped method names.enter body
    refine yields_here fun hnonempty => ?_
    refine (yields_condition "while" cond).bind fun cond' => Yields.intro fun hcond => ?_
    refine (Yields.within (analyzeBranch_scoped hnonempty hbody)).bind fun body' => ?_
    exact yields_pure fun _ hb => ⟨⟨hcond, hb.1⟩, hb.2⟩
  | .for span init cond update body => by
    unfold analyze
    have hinit := analyzeOption_scoped method names.enter init
    refine yields_here fun hnonempty => yields_enter ?_
    refine (Yields.within hinit).bind fun init' => Yields.intro fun hinit => ?_
    refine (yields_loopCondition cond).bind fun cond' => Yields.intro fun hcond => ?_
    -- The update stands before the body and declares for it.
    have hupdate := analyzeOption_scoped method (optionNamesAfter names.enter init') update
    refine (Yields.within hupdate).bind fun update' => Yields.intro fun hupdate => ?_
    refine yields_here fun hinner => ?_
    refine (Yields.within (analyzeBranch_scoped hinner (analyze_scoped method _ body))).bind
      fun body' => Yields.intro fun hbody => ?_
    have haround := (Names.Around.enter names).optionNamesAfter init'
    exact yields_leave (haround.optionNamesAfter update') hnonempty
      fun _ hb => ⟨⟨hinit, hcond, hupdate, hbody⟩, hb⟩

/-- The names of a statement that may be left out are bound to what they denote. -/
theorem analyzeOption_scoped (method : MethodContext) (names : Names) :
    (stmt : Option Stmt) → (analyzeOption method stmt).Yields (Here start names)
      (fun stmt' b => OptionScoped names stmt' ∧ Here start (optionNamesAfter names stmt') b)
        fun _ => True
  | none => by
    unfold analyzeOption
    exact yields_pure fun _ hb => ⟨trivial, hb⟩
  | some stmt => by
    unfold analyzeOption
    exact (Yields.within (analyze_scoped method names stmt)).map fun _ _ => id

/-- The names of statements in a row are bound to what they denote, each after the declarations
    before it. -/
theorem analyzeAll_scoped (method : MethodContext) (names : Names) :
    (stmts : List Stmt) → (analyzeAll method stmts).Yields (Here start names)
      (fun stmts' b => AllScoped names stmts' ∧ Here start (stmts'.foldl namesAfter names) b)
        fun _ => True
  | [] => by
    unfold analyzeAll
    exact yields_pure fun _ hb => ⟨trivial, hb⟩
  | stmt :: rest => by
    unfold analyzeAll
    have hstmt := analyze_scoped method names stmt
    refine (Yields.within hstmt).bind fun stmt' => Yields.intro fun hstmt => ?_
    have hrest := analyzeAll_scoped method (stmt'.namesAfter names) rest
    refine (Yields.within hrest).bind fun rest' => ?_
    exact yields_pure fun _ hb => ⟨⟨hstmt, hb.1⟩, hb.2⟩

end

end Stmt

end SmallJava
