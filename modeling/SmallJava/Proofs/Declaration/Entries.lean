import SmallJava.Proofs.Declaration.Inventory
import SmallJava.Proofs.Scoping.Program

namespace SmallJava

open Walk

/-- Nothing has to be known of a part. -/
theorem Check.yields_trivial {ν α : Type} (part : Check ν α) :
    part.Yields (fun _ => True) fun _ => True :=
  ⟨fun _ => trivial, fun _ => trivial⟩

variable {decls : List Decl}

/-- A walk that keeps the head of each node and enters what the new node declares. -/
theorem Walk.each_inventory {ν η : Type} {walk : ν → Walk ν ν} (head : ν → η)
    (found : ν → List Decl) : (decls : List Decl) → (nodes : List ν) → (∀ node ∈ nodes, ∀ more,
      (walk node).Yields (·.Inventory (decls ++ more))
        (fun node' b => head node' = head node ∧ b.Inventory (decls ++ more ++ found node'))
        fun _ => True) →
      (each walk nodes).Yields (·.Inventory decls)
        (fun nodes' b => nodes'.map head = nodes.map head ∧
          b.Inventory (decls ++ nodes'.flatMap found)) fun _ => True
  | _, [], _ => yields_pure fun _ hb => ⟨rfl, by simpa using hb⟩
  | decls, node :: rest, h => by
    have hfirst := h node List.mem_cons_self []
    rw [List.append_nil] at hfirst
    refine (Yields.within hfirst).bind fun node' => Yields.intro fun hnode => ?_
    refine (Yields.within (each_inventory head found (decls ++ found node') rest
      fun other hmem more => ?_)).bind fun rest' => Yields.intro fun hrest => ?_
    · rw [List.append_assoc decls]
      exact h other (List.mem_cons_of_mem _ hmem) _
    · exact yields_pure fun _ hb => ⟨by simp [hnode, hrest], by simpa using hb⟩

/-- The same where each node is one declaration. -/
theorem Walk.each_inventory_map {ν : Type} {walk : ν → Walk ν ν} (decl : ν → Decl) (nodes : List ν)
    (h : ∀ node decls, (walk node).Yields (·.Inventory decls)
      (fun node' b => b.Inventory (decls ++ [decl node'])) fun _ => True) :
    (each walk nodes).Yields (·.Inventory decls)
      (fun nodes' b => b.Inventory (decls ++ nodes'.map decl)) fun _ => True := by
  refine (each_inventory (fun _ => ()) (fun node => [decl node]) decls nodes fun node _ more =>
    (h node _).weaken (fun _ => id) (fun _ _ h => ⟨rfl, h⟩) fun _ => id).weaken
      (fun _ => id) (fun _ _ h => ?_) fun _ => id
  rw [List.map_eq_flatMap]
  exact h.2

/-- Declaring a class adds the class to the inventory. -/
theorem ClassDef.declare_inventory (cls : ClassDef) (decls : List Decl) :
    cls.declare.Yields (·.Inventory decls) (fun cls' b => b.Inventory (decls ++ [cls'.decl]))
      fun _ => True := by
  refine Yields.get_bind fun b hb => ?_
  dsimp only
  split
  next => exact fun _ _ => Check.yields_abort trivial
  next scope hscope =>
  obtain ⟨hfree, rfl⟩ : b.scope.classes.get? cls.name = none ∧
      scope = { b.scope with classes := b.scope.classes.insert cls.name b.table.nextId } := by
    unfold Scope.declareClass? Dict.contains at hscope
    cases hget : b.scope.classes.get? cls.name with
    | some => simp [hget] at hscope
    | none => exact ⟨rfl, by simpa [hget, eq_comm] using hscope⟩
  exact (yields_set (hb.addClass hfree)).bind fun _ => yields_pure fun _ => id

theorem FieldDef.declare_inventory (c : SymbolId) (className : String) (field : FieldDef)
    (decls : List Decl) : (field.declare c className).Yields (·.Inventory decls)
      (fun field' b => b.Inventory (decls ++ [field'.decl c])) fun _ => True := by
  refine (declareTyped_yields field field.type _ _).bind fun symbol => yields_pure ?_
  rintro b ⟨before, ty, table, hbefore, rfl, hresolve, hdeclare, rfl⟩
  obtain ⟨info, hkind, -, rfl⟩ := (SymbolTable.declareMember_eq_ok_iff rfl).1 hdeclare
  exact hbefore.insertMember hkind rfl rfl hresolve

theorem ParamDef.declare_inventory (param : ParamDef) (decls : List Decl) :
    param.declare.Yields (·.Inventory decls) (fun param' b => b.Inventory (decls ++ [param'.decl]))
      fun _ => True := by
  refine (declareTyped_yields param param.type _ _).bind fun symbol => yields_pure ?_
  rintro b ⟨before, ty, table, hbefore, rfl, hresolve, hdeclare, rfl⟩
  obtain rfl := Except.ok.inj hdeclare
  exact hbefore.addVariable rfl hresolve

/-- Declaring a method adds the method and its parameters to the inventory. -/
theorem MethodDef.declare_inventory (c : SymbolId) (className : String) (method : MethodDef)
    (decls : List Decl) : (method.declare c className).Yields (·.Inventory decls)
      (fun method' b => b.Inventory (decls ++ method'.decls c)) fun _ => True := by
  refine (declareTyped_yields method method.returnType _ _).bind fun symbol =>
    Yields.of_eq fun start hstart => ?_
  obtain ⟨before, ty, table, hbefore, rfl, hresolve, hdeclare, rfl⟩ := hstart
  obtain ⟨info, hkind, -, rfl⟩ := (SymbolTable.declareMember_eq_ok_iff rfl).1 hdeclare
  generalize hdone :
    decls ++ [{ method with binding := some before.table.nextId }.decl c] = done
  have hstart : Bindings.Inventory { before with
      table := before.table.insertMember c method.name
        (.method { owner := c, modifiers := method.modifiers }) ty method.span } done :=
    hdone ▸ hbefore.insertMember hkind rfl rfl hresolve
  refine (Yields.within ((each_inventory_map ParamDef.decl method.params
    ParamDef.declare_inventory).from_state hstart)).bind fun params => ?_
  refine (yields_modify (Q := fun _ => (·.Inventory (done ++ params.map ParamDef.decl)))
    fun b hb => hb.setParams _ _).bind fun _ => yields_pure fun b hb => ?_
  subst hdone
  simpa [MethodDef.decls, MethodDef.decl] using hb

/-- Declaring the members of a class adds its fields and methods to the inventory and keeps the head
of the class. -/
theorem ClassDef.declareMembers_inventory (decls : List Decl) (cls : ClassDef) :
    cls.declareMembers.Yields (·.Inventory decls)
      (fun cls' b => cls'.decl = cls.decl ∧ b.Inventory (decls ++ cls'.memberDecls))
      fun _ => True := by
  unfold declareMembers
  cases hbound : cls.binding with
  | none =>
    refine yields_pure fun b hb => ⟨rfl, ?_⟩
    simpa [memberDecls, hbound] using hb
  | some c =>
    refine (Yields.within (each_inventory_map (FieldDef.decl c) cls.fields
      (FieldDef.declare_inventory c cls.name))).bind fun fields => ?_
    refine (Yields.within (each_inventory (fun _ => ()) (MethodDef.decls c)
      (decls ++ fields.map (FieldDef.decl c)) cls.methods fun method _ more =>
        (MethodDef.declare_inventory c cls.name method _).weaken (fun _ => id)
          (fun _ _ h => ⟨rfl, h⟩) fun _ => id)).bind fun methods => ?_
    refine yields_pure fun b hb => ⟨by simp [decl, hbound], ?_⟩
    simpa [memberDecls] using hb.2

namespace Stmt

theorem declsOf_append (stmts stmts' : List Stmt) :
    declsOf (stmts ++ stmts') = declsOf stmts ++ declsOf stmts' := List.filterMap_append

/-- A statement that declares nothing of its own does not count. -/
theorem declsOf_cons {stmt : Stmt} (hvar : stmt.var? = none) (stmts : List Stmt) :
    declsOf (stmt :: stmts) = declsOf stmts := by
  simp [declsOf, hvar]

theorem inEnv_inventory {ν : Type} {α : Type} (method : MethodContext) {part : Env → Check ν α}
    {Q : α → Prop} (h : ∀ env, (part env).Yields Q fun _ => True) :
    Yields (·.Inventory decls) (inEnv method part) (fun a b => Q a ∧ b.Inventory decls) fun _ => True :=
  Yields.get_bind fun _ hb => (yields_lift (h _)).weaken (fun _ => id)
    (fun _ _ h => ⟨h.1, h.2 ▸ hb⟩) fun _ => id

theorem onScope_inventory {ν : Type} (f : Scope → Scope)
    (hclasses : ∀ scope, (f scope).classes = scope.classes) :
    Yields (·.Inventory decls) (onScope f : Walk ν Unit) (fun _ b => b.Inventory decls)
      fun _ => True :=
  yields_onScope fun b hb => hb.congr rfl rfl (hclasses b.scope)

/-- A statement that declares nothing leaves the table as it is. -/
theorem inEnv_declares (method : MethodContext) {part : Env → Check Stmt Stmt}
    (h : ∀ env, (part env).Yields (fun stmt => declsOf stmt.stmts = []) fun _ => True) :
    Yields (·.Inventory decls) (inEnv method part)
      (fun stmt' b => b.Inventory (decls ++ declsOf stmt'.stmts)) fun _ => True := by
  refine (inEnv_inventory method h).weaken (fun _ => id) (fun stmt' b hb => ?_) fun _ => id
  rw [hb.1, List.append_nil]
  exact hb.2

theorem analyzeAssign_declares (span : Span) (target : Reference) (value : Expr) (env : Env) :
    (analyzeAssign span target value env).Yields (fun stmt => declsOf stmt.stmts = [])
      fun _ => True := by
  refine (Check.yields_trivial (target.check env _)).bind fun _ _ => ?_
  refine (Check.yields_trivial _).bind fun _ _ => ?_
  exact Check.yields_reported rfl

/-- An assignment to an array element declares nothing. -/
theorem analyzeIndexAssign_declares (span : Span) (target : Reference) (subscript value : Expr)
    (env : Env) :
    (analyzeIndexAssign span target subscript value env).Yields
      (fun stmt => declsOf stmt.stmts = []) fun _ => True := by
  refine (Check.yields_trivial (target.check env _)).bind fun _ _ => ?_
  refine (Check.yields_trivial _).bind fun _ _ => ?_
  refine (Check.yields_trivial _).bind fun _ _ => ?_
  refine Check.yields_conclude.bind fun _ _ => ?_
  refine Check.yields_report.bind fun _ _ => ?_
  exact Check.yields_reported rfl

theorem analyzeReturn_declares (span : Span) (value : Option Expr) (env : Env) :
    (analyzeReturn span value env).Yields (fun stmt => declsOf stmt.stmts = []) fun _ => True := by
  cases value with
  | none => exact Check.yields_reported rfl
  | some value =>
    refine (Check.yields_trivial _).bind fun _ _ => ?_
    exact Check.yields_reported rfl

theorem condition_inventory {ν : Type} (method : MethodContext) {rebuild : Expr → ν}
    (construct : String) (cond : Expr) :
    Yields (·.Inventory decls) (within rebuild (inEnv method (cond.checkCondition construct)))
      (fun _ b => b.Inventory decls) fun _ => True :=
  Yields.within ((inEnv_inventory method fun _ => Check.yields_trivial _).weaken (fun _ => id)
    (fun _ _ h => h.2) fun _ => id)

/-- A branch adds to the inventory what its statement adds. -/
theorem analyzeBranch_inventory {stmt : Stmt} {analysis : Walk Stmt Stmt}
    (h : analysis.Yields (·.Inventory decls)
      (fun stmt' b => b.Inventory (decls ++ declsOf stmt'.stmts)) fun _ => True) :
    (analyzeBranch stmt analysis).Yields (·.Inventory decls)
      (fun stmt' b => b.Inventory (decls ++ declsOf stmt'.stmts)) fun _ => True := by
  refine yields_report.bind fun _ => ?_
  refine (onScope_inventory Scope.push fun _ => rfl).bind fun _ => ?_
  refine h.bind fun _ => ?_
  refine (onScope_inventory Scope.pop fun _ => rfl).bind fun _ => ?_
  exact yields_pure fun _ => id

/-- A declaration statement adds its variable to the inventory. -/
theorem analyzeVarDecl_inventory (decls : List Decl) (method : MethodContext) (span : Span)
    (var : LocalDef) (init : Expr) : (analyzeVarDecl method span var init).Yields (·.Inventory decls)
      (fun stmt b => b.Inventory (decls ++ declsOf stmt.stmts)) fun _ => True := by
  refine Yields.get_bind fun b hb => ?_
  refine (yields_lift (Check.yields_orAbort trivial)).bind fun ty => Yields.intro fun hresolve => ?_
  refine (yields_lift (Check.yields_orAbort trivial)).bind fun scope' => Yields.intro fun hdeclare => ?_
  obtain ⟨-, hclasses, -, -⟩ := Scope.declareLocal_eq hdeclare
  have hafter : Bindings.Inventory { b with
      table := b.table.add var.name .localVar ty var.span, scope := scope' }
      (decls ++ [{ var with binding := some b.table.nextId }.decl]) :=
    (hb.addVariable rfl hresolve).congr rfl rfl hclasses
  refine (yields_set (Q := fun _ => (·.Inventory _)) hafter).bind fun _ => ?_
  refine (yields_lift (Check.yields_trivial _)).bind fun _ => Yields.intro fun _ => ?_
  exact yields_report.bind fun _ => yields_pure fun _ => id

mutual

/-- Each variable that a statement declares gets an entry, in the order of the text. -/
theorem analyze_inventory (method : MethodContext) (decls : List Decl) :
    (stmt : Stmt) → (analyze method stmt).Yields (·.Inventory decls)
      (fun stmt' b => b.Inventory (decls ++ declsOf stmt'.stmts)) fun _ => True
  | block span stmts => by
    unfold analyze
    refine (onScope_inventory Scope.push fun _ => rfl).bind fun _ => ?_
    refine (Yields.within (analyzeAll_inventory method decls stmts)).bind fun stmts' => ?_
    refine (onScope_inventory Scope.pop fun _ => rfl).bind fun _ => ?_
    exact yields_pure fun _ => id
  | varDecl span var init => by
    unfold analyze
    exact analyzeVarDecl_inventory decls method span var init
  | assign span target value => by
    unfold analyze
    exact inEnv_declares method (analyzeAssign_declares span target value)
  | indexAssign span target subscript value => by
    unfold analyze
    exact inEnv_declares method (analyzeIndexAssign_declares span target subscript value)
  | call span callee args => by
    unfold analyze
    exact inEnv_declares method fun env =>
      (Check.yields_trivial _).bind fun _ _ => Check.yields_pure rfl
  | .return span value => by
    unfold analyze
    exact inEnv_declares method (analyzeReturn_declares span value)
  | ifElse span cond onTrue onFalse => by
    unfold analyze
    refine (condition_inventory method "if" cond).bind fun cond' => ?_
    have hTrue := analyze_inventory method decls onTrue
    refine (Yields.within (analyzeBranch_inventory hTrue)).bind fun onTrue' => ?_
    cases onFalse with
    | none =>
      refine yields_pure fun b hb => ?_
      rw [stmts, List.cons_append, declsOf_cons rfl, optionStmts, List.append_nil]
      exact hb
    | some onFalse =>
      have hFalse := analyze_inventory method (decls ++ declsOf onTrue'.stmts) onFalse
      refine (Yields.within (analyzeBranch_inventory hFalse)).bind fun onFalse' => ?_
      refine yields_pure fun b hb => ?_
      rw [stmts, List.cons_append, declsOf_cons rfl, optionStmts, declsOf_append, ← List.append_assoc]
      exact hb
  | .while span cond body => by
    unfold analyze
    refine (condition_inventory method "while" cond).bind fun cond' => ?_
    have hbody := analyze_inventory method decls body
    refine (Yields.within (analyzeBranch_inventory hbody)).bind fun body' => ?_
    exact yields_pure fun _ => id
  | .for span init cond update body => by
    unfold analyze
    refine (onScope_inventory Scope.push fun _ => rfl).bind fun _ => ?_
    refine (Yields.within (analyzeOption_inventory method decls init)).bind fun init' => ?_
    refine Yields.bind (Q := fun _ b => b.Inventory (decls ++ declsOf (optionStmts init')))
      (Yields.within ?_) fun cond' => ?_
    · cases cond with
      | none => exact yields_pure fun _ => id
      | some cond => exact (condition_inventory method "for" cond).map fun _ _ => id
    refine (Yields.within (analyzeOption_inventory method _ update)).bind fun update' => ?_
    refine (Yields.within (analyzeBranch_inventory (analyze_inventory method _ body))).bind
      fun body' => ?_
    refine (onScope_inventory Scope.pop fun _ => rfl).bind fun _ => yields_pure fun b hb => ?_
    rw [stmts, List.cons_append, List.cons_append, declsOf_cons rfl, declsOf_append, declsOf_append,
      ← List.append_assoc, ← List.append_assoc]
    exact hb

/-- A statement that may be left out adds what it declares, or nothing. -/
theorem analyzeOption_inventory (method : MethodContext) (decls : List Decl) :
    (stmt : Option Stmt) → (analyzeOption method stmt).Yields (·.Inventory decls)
      (fun stmt' b => b.Inventory (decls ++ declsOf (optionStmts stmt'))) fun _ => True
  | none => by
    unfold analyzeOption
    exact yields_pure fun _ hb => by simpa [optionStmts, declsOf] using hb
  | some stmt => by
    unfold analyzeOption
    exact (Yields.within (analyze_inventory method decls stmt)).map fun _ _ => id

/-- The statements of a block add what they declare, one after the other. -/
theorem analyzeAll_inventory (method : MethodContext) (decls : List Decl) :
    (stmts : List Stmt) → (analyzeAll method stmts).Yields (·.Inventory decls)
      (fun stmts' b => b.Inventory (decls ++ declsOf (allStmts stmts'))) fun _ => True
  | [] => by
    unfold analyzeAll
    exact yields_pure fun _ hb => by simpa [allStmts, declsOf] using hb
  | stmt :: rest => by
    unfold analyzeAll
    refine (Yields.within (analyze_inventory method decls stmt)).bind fun stmt' => ?_
    refine (Yields.within (analyzeAll_inventory method _ rest)).bind fun rest' =>
      yields_pure fun b hb => ?_
    simpa [allStmts, declsOf_append] using hb

end

end Stmt

/-- Every declaration has its entry. -/
theorem Bindings.Inventory.exists_of_mem {b : Bindings} (h : b.Inventory decls) {decl : Decl}
    (hmem : decl ∈ decls) : ∃ x, decl.EnteredAt b x := by
  obtain ⟨x, -, hx⟩ := exists_of_mem_results h.entered.flip hmem
  exact ⟨x, hx⟩

/-- Bringing parameters into force changes none of them, and keeps what each new name keeps. -/
theorem ParamDef.enterAll_keeps {inv : Bindings → Prop} {params : List ParamDef}
    (h : ∀ param ∈ params, ∀ {b x scope'}, inv b → param.binding = some x →
      b.scope.declareLocal param.name x param.span = .ok scope' → inv { b with scope := scope' }) :
    (each ParamDef.enter params).Yields inv (fun params' b => params' = params ∧ inv b)
      fun _ => True := by
  refine (yields_forall inv (R := fun param param' => param = param') params fun param hmem => ?_).weaken
    (fun _ => id) (fun params' b h => ⟨(List.forall₂_eq_eq_eq ▸ h.1 : params = params').symm, h.2⟩)
      fun _ => id
  refine Yields.get_bind fun b hb => ?_
  cases hbound : param.binding with
  | none => exact yields_pure fun _ heq => ⟨rfl, heq ▸ hb⟩
  | some x =>
    refine (yields_lift (Check.yields_orAbort trivial)).bind fun scope' => Yields.intro fun hdeclare => ?_
    exact (yields_set (Q := fun _ => inv) (h param hmem hb hbound hdeclare)).bind fun _ =>
      yields_pure fun _ hb => ⟨rfl, hb⟩

/-- Analysing a method adds the local variables of its body to the inventory and keeps its head. -/
theorem MethodDef.analyze_inventory {c : SymbolId} {method : MethodDef}
    (hmem : method.decl c ∈ decls) : (method.analyze c).Yields (·.Inventory decls)
      (fun method' b => method'.head = method.head ∧
        b.Inventory (decls ++ Stmt.localDecls method'.body)) fun _ => True := by
  refine Yields.of_eq fun start hstart => ?_
  obtain ⟨m, hm⟩ := hstart.exists_of_mem hmem
  have hbound : method.binding = some m := hm.bound
  unfold analyze
  rw [hbound]
  dsimp only
  refine ((Stmt.onScope_inventory Scope.enterMethod fun _ => rfl).from_state hstart).bind fun _ => ?_
  have henter : (each ParamDef.enter method.params).Yields (·.Inventory decls)
      (fun params b => params = method.params ∧ b.Inventory decls) fun _ => True := by
    refine ParamDef.enterAll_keeps fun param _ b x scope' hb _ hdeclare => ?_
    obtain ⟨-, hclasses, -, -⟩ := Scope.declareLocal_eq hdeclare
    exact hb.congr rfl rfl hclasses
  refine (Yields.within henter).bind fun params => Yields.intro fun hparams => ?_
  subst hparams
  refine Yields.get_bind fun b hb => ?_
  refine (Yields.within ((Stmt.analyzeAll_inventory _ decls method.body).from_state hb)).bind
    fun body => ?_
  refine yields_report.bind fun _ => ?_
  refine yields_pure fun b hb => ?_
  exact ⟨by simp [head, hbound], hb⟩

/-- The declared members of a class are read off its head. -/
theorem ClassDef.memberDecls_head (cls : ClassDef) : cls.head.memberDecls = cls.memberDecls := by
  have hbinding : cls.head.binding = cls.binding := rfl
  unfold memberDecls
  rw [hbinding]
  cases cls.binding with
  | none => rfl
  | some c =>
    simp only [head, List.flatMap_map]
    rfl

/-- Analysing a class adds the local variables of all its methods to the inventory and keeps its
head. -/
theorem ClassDef.analyze_inventory {cls : ClassDef} (hcls : cls.decl ∈ decls)
    (hmembers : ∀ decl ∈ cls.memberDecls, decl ∈ decls) (found : List Decl) :
    cls.analyze.Yields (·.Inventory (decls ++ found))
      (fun cls' b => cls'.head = cls.head ∧ b.Inventory (decls ++ found ++ cls'.localDecls))
      fun _ => True := by
  refine Yields.of_eq fun start hstart => ?_
  obtain ⟨c, hc⟩ := hstart.exists_of_mem (List.mem_append_left found hcls)
  have hbound : cls.binding = some c := hc.bound
  unfold analyze
  rw [hbound]
  refine Yields.get_bind fun _ heq => ?_
  subst heq
  have hdeclared : ∀ method ∈ cls.methods, method.decl c ∈ decls := by
    intro method hmem
    refine hmembers _ ?_
    unfold memberDecls
    rw [hbound]
    exact List.mem_append_right _ (List.mem_flatMap.2 ⟨method, hmem, .head _⟩)
  refine ((Stmt.onScope_inventory (Scope.enterClass · _) fun _ => rfl).from_state hstart).bind
    fun _ => ?_
  refine (Yields.within (each_inventory MethodDef.head (fun method => Stmt.localDecls method.body)
    (decls ++ found) cls.methods fun method hmem more => MethodDef.analyze_inventory
      (List.mem_append_left _ (List.mem_append_left found (hdeclared method hmem))))).bind
        fun methods => yields_pure fun b hb => ⟨?_, ?_⟩
  · simpa [head, hbound] using hb.1
  · simpa [localDecls] using hb.2

/-- Once the classes and their members are declared, they are what the table has besides what is
built in. -/
theorem ClassDef.declareAll_inventory (classes : List ClassDef) :
    Yields (· = .initial) (each ClassDef.declare classes >>= each ClassDef.declareMembers)
      (fun declared b => b.Inventory (Builtins.decls ++ declared.map ClassDef.decl ++
        declared.flatMap ClassDef.memberDecls)) fun _ => True := by
  refine ((each_inventory_map ClassDef.decl classes declare_inventory).from_state
    Bindings.initial_inventory).bind fun named => ?_
  refine (each_inventory ClassDef.decl ClassDef.memberDecls (Builtins.decls ++ named.map ClassDef.decl)
    named fun cls _ _ => declareMembers_inventory _ cls).weaken (fun _ => id) (fun declared b h => ?_)
      fun _ => id
  rw [h.1]
  exact h.2

/-- Analysis that is not cut short enters each declaration of the program once, in the order of
`Package.decls`. -/
theorem ClassDef.analyzeAll_inventory (classes : List ClassDef) (span : Span) :
    (analyzeAll classes).Yields (· = .initial)
      (fun classes' b => b.Inventory (Builtins.decls ++ Package.decls ⟨classes', span⟩))
      fun _ => True := by
  unfold analyzeAll
  rw [← bind_assoc]
  refine (declareAll_inventory classes).bind fun declared => ?_
  generalize hbase : Builtins.decls ++ declared.map ClassDef.decl ++
    declared.flatMap ClassDef.memberDecls = base
  refine (each_inventory ClassDef.head ClassDef.localDecls base declared fun cls hmem more =>
    analyze_inventory ?_ (fun decl hdecl => ?_) more).weaken (fun _ => id) (fun classes' b h => ?_)
      fun _ => id
  · rw [← hbase]
    exact List.mem_append_left _ (List.mem_append_right _ (List.mem_map_of_mem hmem))
  · rw [← hbase]
    exact List.mem_append_right _ (List.mem_flatMap.2 ⟨cls, hmem, hdecl⟩)
  · obtain ⟨hheads, hinventory⟩ := h
    have hsame : ∀ {α : Type} {f : ClassDef → α}, (∀ cls, f cls.head = f cls) →
        classes'.map f = declared.map f := by
      intro α f hf
      simpa [Function.comp_def, hf] using congrArg (List.map f) hheads
    unfold Package.decls
    dsimp only
    rw [hsame fun _ => rfl, List.flatMap_def (f := ClassDef.memberDecls),
      hsame ClassDef.memberDecls_head, ← List.flatMap_def, ← List.append_assoc, ← List.append_assoc, hbase]
    exact hinventory

end SmallJava
