import SmallJava.Proofs.Typing.Discipline
import SmallJava.Proofs.Typing.Growth

namespace SmallJava

open Scope

/-- The names in force and the declarations so far mean what the judgement says. The
    variables of the current block are those at the current depth. -/
structure Bindings.Sound (b : Bindings) (Γ : Context) (vars : Nat → List SymbolId) : Prop where
  coherent : b.table.Coherent b.builtins
  written : Γ.returnTy.isWritten = true
  own : ∀ name x, b.scope.members.get? name = some x → b.table.signature.MemberOf Γ.cls x
  classes : ∀ name x, b.scope.classes.get? name = some x →
    ∃ info, b.table.kind? x = some (.cls info)
  covered : b.scope.Covered vars
  kinds : ∀ x ∈ vars b.scope.depth,
    b.table.kind? x = some .localVar ∨ b.table.kind? x = some .param

/-- The method around a statement, as the judgement has it. -/
def Context.method (Γ : Context) : MethodContext := ⟨Γ.cls, Γ.isStatic, Γ.returnTy⟩

/-- What the analysis of a part of a method's body does. `Typed` relates the local
    variables in force before and after the part. -/
structure Walked (strict : Bool) (method : MethodContext) (declared : List SymbolId)
    (Typed : Context → List SymbolId → List SymbolId → Prop) (before after : Bindings) :
    Prop where
  table : before.table.AddsLocals strict after.table
  builtins : after.builtins = before.builtins
  classes : after.scope.classes = before.scope.classes
  members : after.scope.members = before.scope.members
  depth : after.scope.depth = before.scope.depth
  declared : SymbolId.Spans declared before.table.size after.table.size
  typed : ∀ Γ vars locals, method = Γ.method → before.Sound Γ vars → after.table.Within Γ.sig →
    vars before.scope.depth = Γ.params ++ locals →
      ∃ locals', Typed Γ locals locals' ∧
        after.Sound Γ (extend vars before.scope.depth (Γ.params ++ locals'))

namespace Bindings.Sound

variable {b : Bindings} {Γ : Context} {vars : Nat → List SymbolId}

/-- Expressions see the variables at the current depth. -/
theorem env (hsound : b.Sound Γ vars) (hwithin : b.table.Within Γ.sig) :
    (b.env Γ.method).Sound Γ (vars b.scope.depth) where
  within := hwithin
  coherent := hsound.coherent
  cls := rfl
  isStatic := rfl
  returnTy := rfl
  written := hsound.written
  own := hsound.own
  classes := hsound.classes
  locals := fun _ _ hget => .inr (hsound.covered.mem_of_get? hget)
  vars := hsound.kinds

/-- Only the variables at the depths of the scope matter. -/
theorem congr (hsound : b.Sound Γ vars) {vars' : Nat → List SymbolId}
    (hsame : ∀ d ≤ b.scope.depth, vars' d = vars d) : b.Sound Γ vars' where
  coherent := hsound.coherent
  written := hsound.written
  own := hsound.own
  classes := hsound.classes
  covered := hsound.covered.congr hsame
  kinds := by
    rw [hsame _ (Nat.le_refl _)]
    exact hsound.kinds

/-- Names that mean what the judgement says still do in a block of their own. -/
theorem push (hsound : b.Sound Γ vars) :
    Bindings.Sound { b with scope := b.scope.push } Γ
      (extend vars (b.scope.depth + 1) (vars b.scope.depth)) where
  coherent := hsound.coherent
  written := hsound.written
  own := hsound.own
  classes := hsound.classes
  covered := hsound.covered.push
  kinds := by
    change ∀ x ∈ extend vars (b.scope.depth + 1) (vars b.scope.depth) (b.scope.depth + 1), _
    rw [extend_self]
    exact hsound.kinds

/-- Names that mean what the judgement says still do when a block ends. -/
theorem pop (hsound : b.Sound Γ vars) (hdepth : 0 < b.scope.depth) :
    Bindings.Sound { b with scope := b.scope.pop } Γ vars where
  coherent := hsound.coherent
  written := hsound.written
  own := hsound.own
  classes := hsound.classes
  covered := hsound.covered.pop hdepth
  kinds := fun x hmem =>
    hsound.kinds x (hsound.covered.mono _ _ (Nat.sub_le _ _) (Nat.le_refl _) hmem)

end Bindings.Sound

namespace Walked

variable {strict : Bool} {method : MethodContext} {declared declared' : List SymbolId}
  {Typed Typed' : Context → List SymbolId → List SymbolId → Prop} {before mid after : Bindings}

theorem weaken (h : Walked strict method declared Typed before after)
    (himp : ∀ Γ locals locals', Typed Γ locals locals' → Typed' Γ locals locals') :
    Walked strict method declared Typed' before after :=
  { h with
    typed := fun Γ vars locals hmethod hsound hwithin hvars => by
      obtain ⟨locals', htyped, hafter⟩ := h.typed Γ vars locals hmethod hsound hwithin hvars
      exact ⟨locals', himp Γ locals locals' htyped, hafter⟩ }

/-- A part that declares nothing. -/
theorem still (htyped : ∀ Γ locals, method = Γ.method →
      (before.env method).Sound Γ (Γ.params ++ locals) → Typed Γ locals locals) :
    Walked strict method [] Typed before before where
  table := .refl rfl strict _
  builtins := rfl
  classes := rfl
  members := rfl
  depth := rfl
  declared := .nil _ _
  typed := by
    rintro Γ vars locals rfl hsound hwithin hvars
    refine ⟨locals, htyped Γ locals rfl ?_, ?_⟩
    · rw [← hvars]
      exact hsound.env hwithin
    · rw [← hvars, extend_eq]
      exact hsound

/-- Two parts one after the other. -/
theorem trans (h : Walked strict method declared Typed before mid)
    (h' : Walked strict method declared' Typed' mid after) :
    Walked strict method (declared ++ declared')
      (fun Γ locals locals'' => ∃ locals', Typed Γ locals locals' ∧ Typed' Γ locals' locals'')
      before after where
  table := h.table.trans h'.table
  builtins := h'.builtins.trans h.builtins
  classes := h'.classes.trans h.classes
  members := h'.members.trans h.members
  depth := h'.depth.trans h.depth
  declared := h.declared.append h'.declared h.table.size h'.table.size
  typed := by
    intro Γ vars locals hmethod hsound hwithin hvars
    obtain ⟨locals', htyped, hmid⟩ :=
      h.typed Γ vars locals hmethod hsound (h'.table.within hwithin) hvars
    obtain ⟨locals'', htyped', hafter⟩ :=
      h'.typed Γ _ locals' hmethod hmid hwithin (by rw [h.depth, extend_self])
    refine ⟨locals'', ⟨locals', htyped, htyped'⟩, hafter.congr fun d hle => ?_⟩
    rw [h.depth]
    unfold extend
    split <;> rfl

/-- A part that is a block of its own: its variables end with it. -/
theorem inBlock
    (h : Walked strict method declared Typed { before with scope := before.scope.push } mid)
    (hafter : after = { mid with scope := mid.scope.pop }) :
    Walked strict method declared
      (fun Γ locals locals' => locals' = locals ∧ ∃ inner, Typed Γ locals inner) before after := by
  subst hafter
  have hdepth : mid.scope.depth = before.scope.depth + 1 := h.depth
  refine ⟨h.table, h.builtins, h.classes, h.members, ?_, h.declared, ?_⟩
  · change mid.scope.depth - 1 = before.scope.depth
    omega
  · intro Γ vars locals hmethod hsound hwithin hvars
    have hpushed : extend vars (before.scope.depth + 1) (vars before.scope.depth)
        before.scope.push.depth = Γ.params ++ locals := by
      change extend vars (before.scope.depth + 1) _ (before.scope.depth + 1) = _
      rw [extend_self, hvars]
    obtain ⟨inner, htyped, hmid⟩ := h.typed Γ _ locals hmethod hsound.push hwithin hpushed
    refine ⟨locals, ⟨rfl, inner, htyped⟩, ?_⟩
    rw [← hvars, extend_eq]
    refine (hmid.pop (by omega)).congr fun d hle => ?_
    have hle : d ≤ mid.scope.depth - 1 := hle
    change vars d = extend (extend vars _ _) (before.scope.depth + 1) _ d
    rw [extend_of_ne (by omega), extend_of_ne (by omega)]

end Walked

namespace Walk

/-- Analysis of an expression or another part in which names have a meaning. -/
theorem ensures_inEnv {α ν : Type} {method : MethodContext} {part : Env → Check ν α}
    {P : Env → α → Prop} (h : ∀ env, (part env).Ensures (P env)) :
    (inEnv method part).Ensures fun before a after =>
      P (before.env method) a ∧ after = before := by
  refine ensures_get.bind fun bindings => ?_
  refine (ensures_lift (h (bindings.env method))).weaken fun mid a after hpart before hget => ?_
  obtain ⟨rfl, rfl⟩ := hget
  exact hpart

end Walk

/-- A condition about which nothing is reported is a truth value. -/
theorem Expr.checkCondition_ensures (construct : String) (cond : Expr) (env : Env) :
    (cond.checkCondition construct env).Ensures fun found => ∀ Γ vars, env.Sound Γ vars →
      found.HasType Γ vars .boolean := by
  refine (cond.analyze_ensures env).bind ?_
  rintro ⟨cond', ty⟩
  refine Check.ensures_report.bind fun _ => ?_
  refine Check.ensures_pure fun hrequired hcond Γ vars henv => ?_
  obtain ⟨hcond, hknown⟩ := hcond Γ vars henv
  obtain rfl := Ty.eq_boolean_of_agrees hknown (Typing.agrees_of_required hrequired)
  exact hcond

namespace Stmt

open Walk

/-- A statement that declares nothing and is well typed where it stands. -/
structure Plain (env : Env) (stmt : Stmt) : Prop where
  declared : stmt.declared = []
  isVarDecl : stmt.isVarDecl = false
  plainUpdates : stmt.plainUpdates = true
  typed : ∀ Γ locals, env.Sound Γ (Γ.params ++ locals) → stmt.WellTyped Γ locals

/-- What can be assigned is a value with a place of its own. -/
theorem assignable_of_denotes {env : Env} {Γ : Context} {vars : List SymbolId}
    (henv : env.Sound Γ vars) {target : Reference} {ty : Ty} (hdenotes : target.Denotes Γ vars ty)
    (hdeclared : ∀ x, target.binding = some x → (env.table.kind? x).isSome)
    (hplace : Typing.unassignable? env.table target = none) :
    target.Value Γ vars ty ∧ target.Assignable Γ.sig := by
  obtain ⟨hthis, hcls, hmethod, hlength⟩ := Typing.unassignable?_eq_none hplace
  have hvalue := henv.value_of_denotes hdenotes hdeclared hcls hmethod
  obtain ⟨x, hbound⟩ := hvalue.exists_binding hthis
  refine ⟨hvalue, x, hbound, ?_⟩
  rwa [henv.kind?_eq hdeclared, hbound] at hlength

/-- An assignment on which nothing is reported is well typed. -/
theorem analyzeAssign_ensures (span : Span) (target : Reference) (value : Expr) (env : Env) :
    (analyzeAssign span target value env).Ensures (Plain env) := by
  refine (target.check_ensures env _).bind ?_
  rintro ⟨target', targetTy⟩
  refine ((value.analyze_ensures env).within _).bind ?_
  rintro ⟨value', valueTy⟩
  refine Check.ensures_report.bind fun _ => ?_
  refine Check.ensures_pure fun hassign hvalue htarget => ⟨rfl, rfl, rfl, fun Γ locals henv => ?_⟩
  obtain ⟨hdenotes, hwritten, hdeclared⟩ := htarget Γ _ henv
  obtain ⟨hvalue, hknown⟩ := hvalue Γ _ henv
  obtain ⟨hfits, hplace⟩ := Typing.assignment_eq hwritten hknown hassign
  obtain ⟨htarget, hplace⟩ := assignable_of_denotes henv hdenotes hdeclared hplace
  exact .assign htarget hplace hvalue hfits

/-- An assignment to an array element on which nothing is reported is well typed. -/
theorem analyzeIndexAssign_ensures (span : Span) (target : Reference) (subscript value : Expr)
    (env : Env) : (analyzeIndexAssign span target subscript value env).Ensures (Plain env) := by
  refine (target.check_ensures env _).bind ?_
  rintro ⟨target', targetTy⟩
  refine ((subscript.analyze_ensures env).within _).bind ?_
  rintro ⟨subscript', subscriptTy⟩
  refine ((value.analyze_ensures env).within _).bind ?_
  rintro ⟨value', valueTy⟩
  refine Check.ensures_conclude.bind fun elem => ?_
  refine Check.ensures_report.bind fun _ => ?_
  refine Check.ensures_report.bind fun _ => ?_
  refine Check.ensures_pure fun hstored hrequired hverdict hvalue hsubscript htarget =>
    ⟨rfl, rfl, rfl, fun Γ locals henv => ?_⟩
  obtain ⟨hdenotes, hwritten, hdeclared⟩ := htarget Γ _ henv
  obtain ⟨hsubscript, hknown⟩ := hsubscript Γ _ henv
  obtain ⟨hvalue, hknown'⟩ := hvalue Γ _ henv
  obtain ⟨rfl, hcls, hmethod⟩ := Typing.element_eq hwritten hverdict
  obtain rfl := Ty.eq_int_of_agrees hknown (Typing.agrees_of_required hrequired)
  have hwritten : elem.isWritten = true := by simpa [Ty.isWritten] using hwritten
  exact .indexAssign (henv.value_of_denotes hdenotes hdeclared hcls hmethod) hsubscript hvalue
    (Typing.stored_eq hwritten hknown' hstored)

theorem analyzeCall_ensures (span : Span) (callee : Reference) (args : List Expr) (env : Env) :
    (analyzeCall span callee args env).Ensures (Plain env) := by
  refine ((Typing.checkCall_ensures env span callee args
    (Expr.analyzeAll_ensures env args)).within _).bind ?_
  rintro ⟨callee', args', ty⟩
  refine Check.ensures_pure fun hcall => ⟨rfl, rfl, rfl, fun Γ locals henv => ?_⟩
  obtain ⟨m, hcallee, -, -, hargs⟩ := hcall Γ _ henv
  exact .call hcallee hargs

/-- A return on which nothing is reported is well typed. -/
theorem analyzeReturn_ensures (span : Span) (value : Option Expr) (env : Env) :
    (analyzeReturn span value env).Ensures (Plain env) := by
  cases value with
  | none =>
    refine Check.ensures_report.bind fun _ => ?_
    refine Check.ensures_pure fun hreturned => ⟨rfl, rfl, rfl, fun Γ locals henv => .return ?_⟩
    rw [← henv.returnTy]
    exact Typing.returned_none_eq hreturned
  | some value =>
    refine ((value.analyze_ensures env).within _).bind ?_
    rintro ⟨value', ty⟩
    refine Check.ensures_report.bind fun _ => ?_
    refine Check.ensures_pure fun hreturned hvalue => ⟨rfl, rfl, rfl, fun Γ locals henv => ?_⟩
    obtain ⟨hvalue, hknown⟩ := hvalue Γ _ henv
    rw [henv.returnTy] at hreturned
    obtain ⟨hvoid, hfits⟩ := Typing.returned_some_eq henv.written hknown hreturned
    exact .returnValue hvoid hvalue hfits

/-- What the analysis of a statement ensures: the statement is well typed, and it brings
    into force what it binds. -/
def Analyzes (strict : Bool) (method : MethodContext) (before : Bindings) (stmt : Stmt)
    (after : Bindings) : Prop :=
  Walked strict method stmt.declared
    (fun Γ locals locals' => stmt.WellTyped Γ locals ∧ locals' = locals ++ stmt.binds) before after

def AnalyzesBranch (strict : Bool) (method : MethodContext) (before : Bindings) (stmt : Stmt)
    (after : Bindings) : Prop :=
  Walked strict method stmt.declared
    (fun Γ locals locals' => stmt.BranchWellTyped Γ locals ∧ locals' = locals) before after

variable {strict : Bool} {method : MethodContext} {before after : Bindings}

/-- What analysis leaves of a statement as it is written. -/
structure SameShape (stmt stmt' : Stmt) : Prop where
  isVarDecl : stmt'.isVarDecl = stmt.isVarDecl
  plainUpdates : stmt'.plainUpdates = stmt.plainUpdates

theorem Plain.analyzes {stmt : Stmt} (hplain : Plain (before.env method) stmt) :
    Analyzes strict method before stmt before := by
  unfold Analyzes
  rw [hplain.declared, binds_of_plain hplain.isVarDecl]
  exact .still fun Γ locals _ henv => ⟨hplain.typed Γ locals henv, by simp⟩

/-- A new variable comes into force after those that were there. -/
theorem declare_walked {name : String} {ty : Ty} {span : Span} {scope : Scope}
    (hdeclare : before.scope.declareLocal name before.table.nextId span = .ok scope)
    (hwritten : ty.isWritten = true) (hvoid : strict = true → ty.avoidsVoid = true) :
    Walked strict method [before.table.nextId]
      (fun Γ locals locals' => before.table.nextId ∉ Γ.params ++ locals ∧
        Γ.sig.kind? before.table.nextId = some .localVar ∧
        Γ.sig.typeOf before.table.nextId = ty ∧ locals' = locals ++ [before.table.nextId] ∧
        Env.Sound
          { Bindings.env { before with table := before.table.add name .localVar ty span, scope }
              method with initializing := some before.table.nextId } Γ (Γ.params ++ locals))
      before { before with table := before.table.add name .localVar ty span, scope } := by
  have hadds : before.table.AddsLocals strict (before.table.add name .localVar ty span) :=
    SymbolTable.AddsVariables.add rfl before.table name span hwritten hvoid
  have hself : (before.table.add name .localVar ty span).kind? before.table.nextId =
      some .localVar := by simp [SymbolTable.kind?, SymbolTable.get?_add]
  have htypeOf : (before.table.add name .localVar ty span).typeOf before.table.nextId = ty := by
    simp [SymbolTable.typeOf, SymbolTable.get?_add]
  obtain ⟨hdepth, hclasses, hmembers, hlocals⟩ := Scope.declareLocal_eq hdeclare
  refine ⟨hadds, rfl, hclasses, hmembers, hdepth,
    .singleton (Nat.le_refl _) (SymbolTable.lt_size_of_kind? hself), ?_⟩
  rintro Γ vars locals rfl hsound hwithin hvars
  have hkinds : ∀ x ∈ Γ.params ++ locals,
      before.table.kind? x = some .localVar ∨ before.table.kind? x = some .param := by
    rw [← hvars]
    exact hsound.kinds
  have hfresh : before.table.nextId ∉ Γ.params ++ locals := by
    intro hmem
    have hlt : before.table.nextId.index < before.table.size := by
      obtain hkind | hkind := hkinds _ hmem
      · exact SymbolTable.lt_size_of_kind? hkind
      · exact SymbolTable.lt_size_of_kind? hkind
    exact Nat.lt_irrefl _ hlt
  obtain ⟨hfound, hty⟩ := hwithin _ _ hself
  have hcovered := hsound.covered.declare hdeclare
  rw [hvars, List.append_assoc] at hcovered
  refine ⟨locals ++ [before.table.nextId], ⟨hfresh, hfound, hty.trans htypeOf, rfl, ?_⟩, ?_⟩
  · exact {
      within := hwithin
      coherent := hadds.coherent hsound.coherent
      cls := rfl
      isStatic := rfl
      returnTy := rfl
      written := hsound.written
      own := fun name x hget => hadds.memberOf (hsound.own name x (hmembers ▸ hget))
      classes := fun name x hget => by
        obtain ⟨info, hkind⟩ := hsound.classes name x (hclasses ▸ hget)
        exact ⟨info, hadds.kind?_eq_some hkind⟩
      locals := fun other entry hget => by
        change scope.locals.get? other = some entry at hget
        rw [hlocals, Dict.get?_insert] at hget
        split at hget
        next =>
          obtain rfl := Option.some.inj hget
          exact .inl rfl
        next =>
          rw [← hvars]
          exact .inr (hsound.covered.mem_of_get? hget)
      vars := fun x hmem =>
        (hkinds x hmem).imp hadds.kind?_eq_some hadds.kind?_eq_some }
  · exact {
      coherent := hadds.coherent hsound.coherent
      written := hsound.written
      own := fun name x hget => hadds.memberOf (hsound.own name x (hmembers ▸ hget))
      classes := fun name x hget => by
        obtain ⟨info, hkind⟩ := hsound.classes name x (hclasses ▸ hget)
        exact ⟨info, hadds.kind?_eq_some hkind⟩
      covered := hcovered
      kinds := by
        change ∀ x ∈ extend _ _ _ scope.depth, _
        rw [hdepth, extend_self, ← List.append_assoc]
        intro x hmem
        obtain hmem | hmem := List.mem_append.1 hmem
        · exact (hkinds x hmem).imp hadds.kind?_eq_some hadds.kind?_eq_some
        · obtain rfl := List.mem_singleton.1 hmem
          exact .inl hself }

/-- A declaration statement on which nothing is reported is well typed and brings its variable into
    force. -/
theorem analyzeVarDecl_ensures (strict : Bool) (method : MethodContext) (span : Span)
    (var : LocalDef) (init : Expr) :
    (analyzeVarDecl method span var init).Ensures fun before stmt after =>
      (strict = true → var.type.avoidsVoid = true) →
        SameShape (varDecl span var init) stmt ∧ Analyzes strict method before stmt after := by
  refine ensures_get.bind fun bindings => ?_
  refine (ensures_lift Check.ensures_orAbort).bind fun ty => ?_
  refine (ensures_lift Check.ensures_orAbort).bind fun scope => ?_
  refine ensures_set.bind fun _ => ?_
  refine (ensures_lift ((init.analyze_ensures _).within _)).bind ?_
  rintro ⟨init', initTy⟩
  refine ensures_report.bind fun _ => ensures_pure ?_
  rintro after mid ⟨hinitial, rfl⟩ mid ⟨hinit, rfl⟩ mid hset mid ⟨hdeclare, rfl⟩ mid
    ⟨hresolve, rfl⟩ before ⟨rfl, rfl⟩ hvoid
  subst hset
  have hwritten := TypeExpr.isWritten_of_resolve hresolve
  have havoids := fun hstrict => TypeExpr.avoidsVoid_of_resolve hresolve (hvoid hstrict)
  refine ⟨⟨rfl, rfl⟩, (declare_walked hdeclare hwritten havoids).weaken ?_⟩
  rintro Γ locals locals' ⟨hfresh, hkind, rfl, rfl, henv⟩
  obtain ⟨hinit, hknown⟩ := hinit Γ _ henv
  exact ⟨.varDecl rfl hkind hfresh hinit (Typing.initial_eq hwritten hknown hinitial), rfl⟩

/-- A branch is a block of its own. -/
theorem analyzeBranch_ensures {stmt : Stmt} {analysis : Walk Stmt Stmt}
    (h : analysis.Ensures fun before stmt' after => (strict = true → stmt.avoidsVoid = true) →
      SameShape stmt stmt' ∧ Analyzes strict method before stmt' after) :
    (analyzeBranch stmt analysis).Ensures fun before stmt' after =>
      (strict = true → stmt.avoidsVoid = true) →
        stmt'.plainUpdates = stmt.plainUpdates ∧ AnalyzesBranch strict method before stmt' after := by
  refine ensures_report.bind fun _ => ?_
  refine ensures_onScope.bind fun _ => ?_
  refine h.bind fun stmt' => ?_
  refine ensures_onScope.bind fun _ => ensures_pure ?_
  rintro after mid hafter mid' hanalyzes mid'' rfl before ⟨hbranch, rfl⟩ hvoid
  obtain ⟨hshape, hanalyzes⟩ := hanalyzes hvoid
  have hplain := hshape.isVarDecl.trans (Typing.branch_eq hbranch)
  refine ⟨hshape.plainUpdates, (Walked.inBlock hanalyzes hafter).weaken ?_⟩
  rintro Γ _ locals ⟨rfl, inner, htyped, -⟩
  exact ⟨.intro htyped hplain, rfl⟩

/-- The condition of a statement, between other parts of it. -/
theorem inEnv_cond_ensures (strict : Bool) (construct : String) (cond : Expr) :
    (inEnv method (cond.checkCondition construct)).Ensures fun before cond' after =>
      Walked strict method []
        (fun Γ locals locals' => cond'.HasType Γ (Γ.params ++ locals) .boolean ∧ locals' = locals)
        before after := by
  refine (ensures_inEnv fun env => cond.checkCondition_ensures construct env).weaken ?_
  rintro before cond' after ⟨hcond, rfl⟩
  exact .still fun Γ _ _ henv => ⟨hcond Γ _ henv, rfl⟩

/-- The condition of a loop on which nothing is reported is of type `boolean`. -/
theorem loopCond_ensures (strict : Bool) (cond : Option Expr) :
    Walk.Ensures (match cond with
      | none => pure none
      | some cond => some <$> within some (inEnv method (cond.checkCondition "for")))
      fun before cond' after =>
        Walked strict method []
          (fun Γ locals locals' =>
            (∀ c ∈ cond', c.HasType Γ (Γ.params ++ locals) .boolean) ∧ locals' = locals)
          before after := by
  cases cond with
  | none => exact ensures_pure fun _ => .still fun _ _ _ _ => ⟨nofun, rfl⟩
  | some cond =>
    refine ((inEnv_cond_ensures strict "for" cond).within _).map ?_
    intro before cond' after hcond
    refine Walked.weaken hcond ?_
    rintro Γ locals locals' ⟨hcond, rfl⟩
    refine ⟨?_, rfl⟩
    rintro _ ⟨⟩
    exact hcond

/-- A statement that is typed in the names of the method declares nothing and leaves them as they
    are. -/
theorem inEnv_ensures {part : Env → Check Stmt Stmt} {stmt : Stmt}
    (hdecl : stmt.isVarDecl = false) (hplain : stmt.plainUpdates = true)
    (h : ∀ env, (part env).Ensures (Plain env)) :
    (inEnv method part).Ensures fun before stmt' after =>
      (strict = true → stmt.avoidsVoid = true) →
        SameShape stmt stmt' ∧ Analyzes strict method before stmt' after := by
  refine (ensures_inEnv h).weaken ?_
  rintro before stmt' after ⟨hfound, rfl⟩ -
  exact ⟨⟨hfound.isVarDecl.trans hdecl.symm, hfound.plainUpdates.trans hplain.symm⟩,
    hfound.analyzes⟩

def AnalyzesOption (strict : Bool) (method : MethodContext) (before : Bindings)
    (stmt : Option Stmt) (after : Bindings) : Prop :=
  Walked strict method (optionDeclared stmt)
    (fun Γ locals locals' => (∀ s ∈ stmt, s.WellTyped Γ locals) ∧
      locals' = locals ++ optionBinds stmt) before after

def AnalyzesAll (strict : Bool) (method : MethodContext) (before : Bindings)
    (stmts : List Stmt) (after : Bindings) : Prop :=
  Walked strict method (allDeclared stmts)
    (fun Γ locals _ => ListWellTyped Γ locals stmts) before after

mutual

/-- A statement about which nothing is reported is well typed, and new variables are
    declared in the order of the code. -/
theorem analyze_ensures (strict : Bool) (method : MethodContext) : (stmt : Stmt) →
    (analyze method stmt).Ensures fun before stmt' after =>
      (strict = true → stmt.avoidsVoid = true) →
        SameShape stmt stmt' ∧ Analyzes strict method before stmt' after
  | block span stmts => by
    refine ensures_onScope.bind fun _ => ?_
    refine ((analyzeAll_ensures strict method stmts).within _).bind fun stmts' => ?_
    refine ensures_onScope.bind fun _ => ensures_pure ?_
    rintro after mid hafter mid' hanalyzes before rfl hvoid
    obtain ⟨hplain, hanalyzes⟩ := hanalyzes hvoid
    refine ⟨⟨rfl, hplain⟩, (Walked.inBlock hanalyzes hafter).weaken ?_⟩
    rintro Γ locals locals' ⟨rfl, inner, htyped⟩
    exact ⟨.block htyped, (List.append_nil _).symm⟩
  | varDecl span var init => by
    refine (analyzeVarDecl_ensures strict method span var init).weaken ?_
    intro before stmt' after hanalyzes hvoid
    exact hanalyzes fun hstrict => (Bool.and_eq_true_iff.1 (hvoid hstrict)).1
  | assign span target value => inEnv_ensures rfl rfl (analyzeAssign_ensures span target value)
  | indexAssign span target subscript value =>
    inEnv_ensures rfl rfl (analyzeIndexAssign_ensures span target subscript value)
  | call span callee args => inEnv_ensures rfl rfl (analyzeCall_ensures span callee args)
  | .return span value => inEnv_ensures rfl rfl (analyzeReturn_ensures span value)
  | ifElse span cond onTrue onFalse => by
    rw [analyze]
    refine ((inEnv_cond_ensures strict "if" cond).within _).bind fun cond' => ?_
    refine ((analyzeBranch_ensures (analyze_ensures strict method onTrue)).within _).bind
      fun onTrue' => ?_
    cases onFalse with
    | none =>
      refine ensures_pure ?_
      rintro after mid hTrue before hcond hvoid
      obtain ⟨hplain, hTrue⟩ := hTrue fun hstrict =>
        (Bool.and_eq_true_iff.1 (Bool.and_eq_true_iff.1 (hvoid hstrict)).1).2
      refine ⟨⟨rfl, by simp [plainUpdates, hplain]⟩, ?_⟩
      unfold Analyzes
      simp only [declared, optionDeclared, List.append_nil]
      refine (Walked.trans hcond hTrue).weaken ?_
      rintro Γ locals locals' ⟨_, ⟨hcond, rfl⟩, hTrue, rfl⟩
      exact ⟨.ifElse hcond hTrue nofun, (List.append_nil _).symm⟩
    | some onFalse =>
      refine ((analyzeBranch_ensures (analyze_ensures strict method onFalse)).within _).bind
        fun onFalse' => ensures_pure ?_
      rintro after mid hFalse mid' hTrue before hcond hvoid
      obtain ⟨hplain, hTrue⟩ := hTrue fun hstrict =>
        (Bool.and_eq_true_iff.1 (Bool.and_eq_true_iff.1 (hvoid hstrict)).1).2
      obtain ⟨hplain', hFalse⟩ := hFalse fun hstrict =>
        (Bool.and_eq_true_iff.1 (hvoid hstrict)).2
      refine ⟨⟨rfl, by simp [plainUpdates, optionPlainUpdates, hplain, hplain']⟩,
        (Walked.trans hcond (Walked.trans hTrue hFalse)).weaken ?_⟩
      rintro Γ locals locals' ⟨_, ⟨hcond, rfl⟩, _, ⟨hTrue, rfl⟩, hFalse, rfl⟩
      refine ⟨.ifElse hcond hTrue ?_, (List.append_nil _).symm⟩
      rintro _ ⟨⟩
      exact hFalse
  | .while span cond body => by
    refine ((inEnv_cond_ensures strict "while" cond).within _).bind fun cond' => ?_
    refine ((analyzeBranch_ensures (analyze_ensures strict method body)).within _).bind
      fun body' => ensures_pure ?_
    rintro after mid hbody before hcond hvoid
    obtain ⟨hplain, hbody⟩ := hbody fun hstrict => (Bool.and_eq_true_iff.1 (hvoid hstrict)).2
    refine ⟨⟨rfl, hplain⟩, (Walked.trans hcond hbody).weaken ?_⟩
    rintro Γ locals locals' ⟨_, ⟨hcond, rfl⟩, hbody, rfl⟩
    exact ⟨.while hcond hbody, (List.append_nil _).symm⟩
  | .for span init cond update body => by
    refine ensures_onScope.bind fun _ => ?_
    refine ((analyzeOption_ensures strict method init).within _).bind fun init' => ?_
    refine ((loopCond_ensures strict cond).within _).bind fun cond' => ?_
    refine ((analyzeOption_ensures strict method update).within _).bind fun update' => ?_
    refine ((analyzeBranch_ensures (analyze_ensures strict method body)).within _).bind
      fun body' => ?_
    refine ensures_onScope.bind fun _ => ensures_pure ?_
    rintro after mid hafter mid' hbody mid'' hupdate mid₃ hcond mid₄ hinit before rfl hvoid
    have hvoid : strict = true → (optionAvoidsVoid init = true ∧ optionAvoidsVoid update = true) ∧
        body.avoidsVoid = true := by
      intro hstrict
      obtain ⟨hvoid, hvoidBody⟩ := Bool.and_eq_true_iff.1 (hvoid hstrict)
      obtain ⟨hvoid, hvoidUpdate⟩ := Bool.and_eq_true_iff.1 hvoid
      exact ⟨⟨(Bool.and_eq_true_iff.1 hvoid).1, hvoidUpdate⟩, hvoidBody⟩
    obtain ⟨-, hplainInit, hinit⟩ := hinit fun hstrict => (hvoid hstrict).1.1
    obtain ⟨hdecl, hplainUpdate, hupdate⟩ := hupdate fun hstrict => (hvoid hstrict).1.2
    obtain ⟨hplainBody, hbody⟩ := hbody fun hstrict => (hvoid hstrict).2
    refine ⟨⟨rfl, by simp [plainUpdates, hplainInit, hdecl, hplainUpdate, hplainBody]⟩,
      (Walked.inBlock (Walked.trans hinit
        (Walked.trans hcond (Walked.trans hupdate hbody))) hafter).weaken ?_⟩
    rintro Γ _ locals
      ⟨rfl, _, _, ⟨hinit, rfl⟩, _, ⟨hcond, rfl⟩, _, ⟨hupdate, rfl⟩, hbody, rfl⟩
    exact ⟨.for hinit hcond hupdate hbody, (List.append_nil _).symm⟩

/-- A statement that may be left out is well typed if nothing is reported, and brings what it
    declares into force. -/
theorem analyzeOption_ensures (strict : Bool) (method : MethodContext) : (stmt : Option Stmt) →
    (analyzeOption method stmt).Ensures fun before stmt' after =>
      (strict = true → optionAvoidsVoid stmt = true) →
        stmt'.any isVarDecl = stmt.any isVarDecl ∧
          optionPlainUpdates stmt' = optionPlainUpdates stmt ∧
            AnalyzesOption strict method before stmt' after
  | none => ensures_pure fun before _ => ⟨rfl, rfl, .still fun Γ locals _ _ =>
      ⟨nofun, (List.append_nil _).symm⟩⟩
  | some stmt => by
    refine ((analyze_ensures strict method stmt).within _).map ?_
    intro before stmt' after hanalyzes hvoid
    obtain ⟨hshape, hanalyzes⟩ := hanalyzes hvoid
    refine ⟨hshape.isVarDecl, hshape.plainUpdates, Walked.weaken hanalyzes ?_⟩
    rintro Γ locals locals' ⟨htyped, rfl⟩
    refine ⟨?_, rfl⟩
    rintro _ ⟨⟩
    exact htyped

/-- Statements in a row are well typed if nothing is reported on any of them. -/
theorem analyzeAll_ensures (strict : Bool) (method : MethodContext) : (stmts : List Stmt) →
    (analyzeAll method stmts).Ensures fun before stmts' after =>
      (strict = true → allAvoidVoid stmts = true) →
        allPlainUpdates stmts' = allPlainUpdates stmts ∧ AnalyzesAll strict method before stmts' after
  | [] => ensures_pure fun before _ => ⟨rfl, .still fun Γ locals _ _ => .nil⟩
  | stmt :: rest => by
    refine ((analyze_ensures strict method stmt).within _).bind fun stmt' => ?_
    refine ((analyzeAll_ensures strict method rest).within _).bind fun rest' => ensures_pure ?_
    intro after mid hrest before hfirst hvoid
    obtain ⟨hshape, hfirst⟩ := hfirst fun hstrict => (Bool.and_eq_true_iff.1 (hvoid hstrict)).1
    obtain ⟨hplain, hrest⟩ := hrest fun hstrict => (Bool.and_eq_true_iff.1 (hvoid hstrict)).2
    refine ⟨by simp [allPlainUpdates, hshape.plainUpdates, hplain],
      (Walked.trans hfirst hrest).weaken ?_⟩
    rintro Γ locals locals' ⟨_, ⟨hstmt, rfl⟩, hrest⟩
    exact .cons hstmt hrest

end

end Stmt

end SmallJava
