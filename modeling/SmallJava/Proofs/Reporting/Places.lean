import SmallJava.Proofs.Acceptance.Program
import SmallJava.Proofs.Analysis.Independence
import SmallJava.Proofs.Reporting.Parts
import SmallJava.Proofs.Reporting.Program
import SmallJava.Proofs.Reporting.Replacement

/-! One mistake in a program without mistakes is reported once. -/

namespace SmallJava

open Walk

section Covered

namespace Expr

variable {a : Expr} (b : Expr)

mutual

/-- An expression can be replaced at any place where it stands. -/
theorem exists_replaced_of_inner : {expr : Expr} → a ∈ expr.inner → ∃ expr', Replaced a b expr expr'
  | .unary _ _ operand, h => by
    obtain ⟨operand', hoperand⟩ := exists_replaced_of_mem h
    exact ⟨_, .unary hoperand⟩
  | .binary _ _ left right, h => by
    obtain h | h := List.mem_append.1 h
    · obtain ⟨left', hleft⟩ := exists_replaced_of_mem h
      exact ⟨_, .left hleft⟩
    · obtain ⟨right', hright⟩ := exists_replaced_of_mem h
      exact ⟨_, .right hright⟩
  | .ternary _ cond onTrue onFalse, h => by
    obtain h | h := List.mem_append.1 h
    · obtain h | h := List.mem_append.1 h
      · obtain ⟨cond', hcond⟩ := exists_replaced_of_mem h
        exact ⟨_, .cond hcond⟩
      · obtain ⟨onTrue', htrue⟩ := exists_replaced_of_mem h
        exact ⟨_, .onTrue htrue⟩
    · obtain ⟨onFalse', hfalse⟩ := exists_replaced_of_mem h
      exact ⟨_, .onFalse hfalse⟩
  | .index _ _ subscript, h => by
    obtain ⟨subscript', hsubscript⟩ := exists_replaced_of_mem h
    exact ⟨_, .subscript hsubscript⟩
  | .call _ _ args, h => by
    obtain ⟨args', hargs⟩ := exists_listReplaced h
    exact ⟨_, .args hargs⟩
  | .newArray _ _ size, h => by
    obtain ⟨size', hsize⟩ := exists_replaced_of_mem h
    exact ⟨_, .size hsize⟩

theorem exists_replaced_of_mem {expr : Expr} (h : a ∈ expr :: expr.inner) :
    ∃ expr', Replaced a b expr expr' := by
  obtain rfl | h := List.mem_cons.1 h
  · exact ⟨b, .here⟩
  · exact exists_replaced_of_inner h

/-- An expression in a list can be replaced where it stands. -/
theorem exists_listReplaced : {exprs : List Expr} → a ∈ allExprs exprs →
    ∃ exprs', ListReplaced a b exprs exprs'
  | expr :: rest, h => by
    obtain h | h := List.mem_append.1 h
    · obtain ⟨expr', hexpr⟩ := exists_replaced_of_mem h
      exact ⟨_, .head hexpr⟩
    · obtain ⟨rest', hrest⟩ := exists_listReplaced h
      exact ⟨_, .tail hrest⟩

end

end Expr

namespace Stmt

variable {method : MethodContext} {names after : Bindings} {a : Expr} {stmt done : Stmt}

/-- The expression stands in the statement, and anything can be put in its place. -/
def Places (method : MethodContext) (a : Expr) (names : Bindings) (stmt : Stmt) : Prop :=
  ∃ env, ∀ b, ∃ stmt', Replaced method a b env names stmt stmt'

/-- What stands in a part of a statement stands in the statement. -/
theorem Places.map {inside : Bindings} {outer : Stmt} (h : Places method a inside stmt)
    (f : Stmt → Stmt) (hf : ∀ {env b stmt'}, Replaced method a b env inside stmt stmt' →
      Replaced method a b env names outer (f stmt')) : Places method a names outer := by
  obtain ⟨env, h⟩ := h
  refine ⟨env, fun b => ?_⟩
  obtain ⟨stmt', hstmt⟩ := h b
  exact ⟨_, hf hstmt⟩

theorem places_of_mem {expr : Expr} (h : a ∈ expr.exprs) {env : Env} (f : Expr → Stmt)
    (hf : ∀ {b expr'}, Expr.Replaced a b expr expr' →
      Replaced method a b env names stmt (f expr')) : Places method a names stmt := by
  refine ⟨env, fun b => ?_⟩
  obtain ⟨expr', hexpr⟩ := Expr.exists_replaced_of_mem b h
  exact ⟨_, hf hexpr⟩

/-- What passes in a branch starts with a block of names of its own. -/
theorem passes_of_branch (h : (analyzeBranch stmt (stmt.analyze method)).Passes names done after) :
    ∃ done after, (stmt.analyze method).Passes { names with scope := names.scope.push } done after := by
  have hstmt := accepts_passes (analyze_ensures false method stmt)
  -- What `Accepts` says of the whole is read off the parts, so the goal cannot be stated before.
  have haccepts : (analyzeBranch stmt (stmt.analyze method)).Accepts _ :=
    accepts_report.bind fun _ => accepts_onScope.bind fun _ => hstmt.bind fun _ =>
      accepts_onScope.bind fun _ => accepts_pure
  obtain ⟨_, _, ⟨-, rfl⟩, _, _, rfl, done, after, hdone, -⟩ := (haccepts.iff _ _ _).1 h
  exact ⟨done, after, hdone⟩

/-- A block on which nothing is reported has statements on which nothing is reported. -/
theorem passes_block {span : Span} {stmts : List Stmt}
    (h : (analyze method (.block span stmts)).Passes names done after) : ∃ stmts' inside,
      (analyzeAll method stmts).Passes { names with scope := names.scope.push } stmts' inside := by
  have haccepts : (analyze method (.block span stmts)).Accepts _ :=
    accepts_onScope.bind fun _ => ((accepts_passes (analyzeAll_ensures false method stmts)).within
      _).bind fun _ => accepts_onScope.bind fun _ => accepts_pure
  obtain ⟨_, _, rfl, stmts', inside, hstmts, -⟩ := (haccepts.iff _ _ _).1 h
  exact ⟨stmts', inside, hstmts⟩

theorem condition_accepts (method : MethodContext) (construct : String) (cond : Expr) :
    (inEnv method (cond.checkCondition construct)).Accepts
      (inEnv method (cond.checkCondition construct)).Passes :=
  accepts_passes (inEnv_cond_ensures false construct cond)

theorem same_of_passes_cond {construct : String} {cond cond' : Expr}
    (h : (inEnv method (cond.checkCondition construct)).Passes names cond' after) : after = names :=
  have hcond := cond.checkCondition_oblivious construct
  ((oblivious_inEnv hcond).gives h).of_inEnv hcond

/-- A choice on which nothing is reported has branches on which nothing is reported. -/
theorem passes_ifElse {span : Span} {cond : Expr} {onTrue : Stmt} {onFalse : Option Stmt}
    (h : (analyze method (.ifElse span cond onTrue onFalse)).Passes names done after) :
    ∃ onTrue' mid, (analyzeBranch onTrue (onTrue.analyze method)).Passes names onTrue' mid ∧
      ∀ stmt ∈ onFalse, ∃ onFalse' leaving,
        (analyzeBranch stmt (stmt.analyze method)).Passes mid onFalse' leaving := by
  have hcond := (condition_accepts method "if" cond).within
    (ifElse span · onTrue onFalse)
  have htrue := accepts_passes (analyzeBranch_ensures (analyze_ensures false method onTrue))
  cases onFalse with
  | none =>
    have haccepts : (analyze method (.ifElse span cond onTrue none)).Accepts _ :=
      hcond.bind fun _ => (htrue.within _).bind fun _ => accepts_pure
    obtain ⟨cond', _, hpasses, onTrue', mid, hpasses', -⟩ := (haccepts.iff _ _ _).1 h
    obtain rfl := same_of_passes_cond hpasses
    exact ⟨onTrue', mid, hpasses', fun stmt hmem => by cases hmem⟩
  | some onFalse =>
    have haccepts : (analyze method (.ifElse span cond onTrue (some onFalse))).Accepts _ :=
      hcond.bind fun _ => (htrue.within _).bind fun _ => ((accepts_passes (analyzeBranch_ensures
        (analyze_ensures false method onFalse))).within _).bind fun _ => accepts_pure
    obtain ⟨cond', _, hpasses, onTrue', mid, hpasses', onFalse', leaving, hpasses'', -⟩ :=
      (haccepts.iff _ _ _).1 h
    obtain rfl := same_of_passes_cond hpasses
    refine ⟨onTrue', mid, hpasses', ?_⟩
    rintro _ ⟨⟩
    exact ⟨onFalse', leaving, hpasses''⟩

/-- A loop on which nothing is reported has a body on which nothing is reported. -/
theorem passes_while {span : Span} {cond : Expr} {body : Stmt}
    (h : (analyze method (.while span cond body)).Passes names done after) :
    ∃ body' leaving, (analyzeBranch body (body.analyze method)).Passes names body' leaving := by
  have haccepts : (analyze method (.while span cond body)).Accepts _ :=
    ((condition_accepts method "while" cond).within _).bind
      fun _ => ((accepts_passes (analyzeBranch_ensures (analyze_ensures false method body))).within
        _).bind fun _ => accepts_pure
  obtain ⟨cond', _, hpasses, body', leaving, hbody, -⟩ := (haccepts.iff _ _ _).1 h
  obtain rfl := same_of_passes_cond hpasses
  exact ⟨body', leaving, hbody⟩

/-- A loop about which nothing is reported. -/
theorem passes_for {span : Span} {init : Option Stmt} {cond : Option Expr} {update : Option Stmt}
    {body : Stmt} (h : (analyze method (.for span init cond update body)).Passes names done after) :
    ∃ init' inside update' after body' leaving,
      (analyzeOption method init).Passes { names with scope := names.scope.push } init' inside ∧
        (analyzeOption method update).Passes inside update' after ∧
          (analyzeBranch body (body.analyze method)).Passes after body' leaving := by
  have hinit := accepts_passes (analyzeOption_ensures false method init)
  have hcond := accepts_passes (@loopCond_ensures method false cond)
  have hupdate := accepts_passes (analyzeOption_ensures false method update)
  have hbody := accepts_passes (analyzeBranch_ensures (analyze_ensures false method body))
  have haccepts : (analyze method (.for span init cond update body)).Accepts _ :=
    accepts_onScope.bind fun _ => (hinit.within _).bind fun _ => (hcond.within _).bind fun _ =>
      (hupdate.within _).bind fun _ => (hbody.within _).bind fun _ => accepts_onScope.bind fun _ =>
        accepts_pure
  obtain ⟨_, _, rfl, init', inside, hinit, cond', _, hcond, update', after, hupdate, body', leaving,
    hbody, -⟩ := (haccepts.iff _ _ _).1 h
  obtain rfl := Gives.of_loopCondition ((loopCondition_oblivious method cond).gives hcond)
  exact ⟨init', _, update', after, body', leaving, hinit, hupdate, hbody⟩

/-- Anything can be put in the place of the expressions that stand in the statement itself. -/
theorem places_of_own (h : (stmt.analyze method).Passes names done after) {expr : Expr}
    (hmem : expr ∈ stmt.own) (ha : a ∈ expr.exprs) : Places method a names stmt := by
  cases stmt with
  | block => cases hmem
  | varDecl span var init =>
    obtain rfl := List.mem_singleton.1 hmem
    obtain ⟨ty, scope, typed, hty, hscope, -⟩ := passes_varDecl.1 h
    exact places_of_mem ha _ (.init hty hscope)
  | assign span target value =>
    obtain rfl := List.mem_singleton.1 hmem
    exact places_of_mem ha _ .assigned
  | indexAssign span target subscript value =>
    obtain rfl | hmem := List.mem_cons.1 hmem
    · exact places_of_mem ha _ .subscript
    · obtain rfl := List.mem_singleton.1 hmem
      exact places_of_mem ha _ .stored
  | call span callee args =>
    refine ⟨names.env method, fun b => ?_⟩
    obtain ⟨args', hargs⟩ := Expr.exists_listReplaced b (Expr.mem_allExprs.2 ⟨expr, hmem, ha⟩)
    exact ⟨_, .args hargs⟩
  | «return» span value =>
    obtain rfl := Option.mem_toList.1 hmem
    exact places_of_mem ha _ .returned
  | ifElse span cond onTrue onFalse =>
    obtain rfl := List.mem_singleton.1 hmem
    exact places_of_mem ha _ .ifCond
  | «while» span cond body =>
    obtain rfl := List.mem_singleton.1 hmem
    exact places_of_mem ha _ .whileCond
  | «for» span init cond update body =>
    obtain rfl := Option.mem_toList.1 hmem
    obtain ⟨init', inside, update', after', body', leaving, hinit, -⟩ := passes_for h
    exact places_of_mem ha _ (.forCond hinit)

/-- Like `Stmt.Places`, for statements in sequence. -/
def ListPlaces (method : MethodContext) (a : Expr) (names : Bindings) (stmts : List Stmt) : Prop :=
  ∃ env, ∀ b, ∃ stmts', ListReplaced method a b env names stmts stmts'

section Mem

variable {expr : Expr} {inner : Stmt}

mutual

/-- Anything can be put in the place of any expression of a statement about which nothing is
reported. -/
theorem places_of_mem_stmts (hexpr : expr ∈ inner.own) (ha : a ∈ expr.exprs) :
    {stmt : Stmt} → {names after : Bindings} → {done : Stmt} →
    (stmt.analyze method).Passes names done after → inner ∈ stmt.stmts → Places method a names stmt
  | .varDecl .., _, _, _, h, hmem | .assign .., _, _, _, h, hmem
  | .indexAssign .., _, _, _, h, hmem | .call .., _, _, _, h, hmem
  | .return .., _, _, _, h, hmem => by
    obtain rfl := List.mem_singleton.1 hmem
    exact places_of_own h hexpr ha
  | .block span stmts, names, _, _, h, hmem => by
    obtain rfl | hmem := List.mem_cons.1 hmem
    · exact places_of_own h hexpr ha
    · obtain ⟨stmts', inside, hstmts⟩ := passes_block h
      obtain ⟨env, hplaces⟩ := listPlaces_of_mem_stmts hexpr ha hstmts hmem
      refine ⟨env, fun b => ?_⟩
      obtain ⟨stmts', hstmts⟩ := hplaces b
      exact ⟨_, .block hstmts⟩
  | .ifElse span cond onTrue onFalse, names, _, _, h, hmem => by
    obtain ⟨onTrue', mid, htrue, hfalse⟩ := passes_ifElse h
    obtain hmem | hmem := List.mem_append.1 hmem
    · obtain rfl | hmem := List.mem_cons.1 hmem
      · exact places_of_own h hexpr ha
      · obtain ⟨done, after, hdone⟩ := passes_of_branch htrue
        exact (places_of_mem_stmts hexpr ha hdone hmem).map _ .onTrue
    · cases onFalse with
      | none => cases hmem
      | some onFalse =>
        obtain ⟨onFalse', leaving, hfalse⟩ := hfalse onFalse rfl
        obtain ⟨done, after, hdone⟩ := passes_of_branch hfalse
        exact (places_of_mem_stmts hexpr ha hdone hmem).map _ (.onFalse htrue)
  | .while span cond body, names, _, _, h, hmem => by
    obtain ⟨body', leaving, hbody⟩ := passes_while h
    obtain rfl | hmem := List.mem_cons.1 hmem
    · exact places_of_own h hexpr ha
    · obtain ⟨done, after, hdone⟩ := passes_of_branch hbody
      exact (places_of_mem_stmts hexpr ha hdone hmem).map _ .whileBody
  | .for span init cond update body, names, _, _, h, hmem => by
    obtain ⟨init', inside, update', after', body', leaving, hinit, hupdate, hbody⟩ := passes_for h
    obtain hmem | hmem := List.mem_append.1 hmem
    · obtain hmem | hmem := List.mem_append.1 hmem
      · obtain rfl | hmem := List.mem_cons.1 hmem
        · exact places_of_own h hexpr ha
        · obtain ⟨stmt, rfl, hplaces⟩ := optionPlaces_of_mem_stmts hexpr ha hinit hmem
          exact hplaces.map _ .forInit
      · obtain ⟨stmt, rfl, hplaces⟩ := optionPlaces_of_mem_stmts hexpr ha hupdate hmem
        exact hplaces.map _ (.forUpdate hinit)
    · obtain ⟨done, after, hdone⟩ := passes_of_branch hbody
      exact (places_of_mem_stmts hexpr ha hdone hmem).map _ (.forBody hinit hupdate)

/-- An expression of a statement that may be left out stands in it and can be replaced. -/
theorem optionPlaces_of_mem_stmts (hexpr : expr ∈ inner.own) (ha : a ∈ expr.exprs) :
    {stmt : Option Stmt} → {names after : Bindings} →
    {done : Option Stmt} → (analyzeOption method stmt).Passes names done after →
      inner ∈ optionStmts stmt → ∃ part, stmt = some part ∧ Places method a names part
  | some stmt, _, _, _, h, hmem => by
    have haccepts : Accepts (within some (analyze method stmt) >>= fun stmt => pure (some stmt)) _ :=
      ((accepts_passes (analyze_ensures false method stmt)).within _).bind fun _ => accepts_pure
    rw [analyzeOption, map_eq_pure_bind] at h
    obtain ⟨done, after, hdone, -⟩ := (haccepts.iff _ _ _).1 h
    exact ⟨stmt, rfl, places_of_mem_stmts hexpr ha hdone hmem⟩

/-- An expression of statements in a row stands in one of them and can be replaced. -/
theorem listPlaces_of_mem_stmts (hexpr : expr ∈ inner.own) (ha : a ∈ expr.exprs) :
    {stmts : List Stmt} → {names after : Bindings} →
    {done : List Stmt} → (analyzeAll method stmts).Passes names done after →
      inner ∈ allStmts stmts → ListPlaces method a names stmts
  | stmt :: rest, _, _, _, h, hmem => by
    have haccepts : (analyzeAll method (stmt :: rest)).Accepts _ :=
      ((accepts_passes (analyze_ensures false method stmt)).within _).bind fun _ =>
        ((accepts_passes (analyzeAll_ensures false method rest)).within _).bind fun _ => accepts_pure
    obtain ⟨stmt', mid, hstmt, rest', after, hrest, -⟩ := (haccepts.iff _ _ _).1 h
    obtain hmem | hmem := List.mem_append.1 hmem
    · obtain ⟨env, hplaces⟩ := places_of_mem_stmts hexpr ha hstmt hmem
      refine ⟨env, fun b => ?_⟩
      obtain ⟨stmt', hstmt⟩ := hplaces b
      exact ⟨_, .head hstmt⟩
    · obtain ⟨env, hplaces⟩ := listPlaces_of_mem_stmts hexpr ha hrest hmem
      refine ⟨env, fun b => ?_⟩
      obtain ⟨rest', hrest⟩ := hplaces b
      exact ⟨_, .tail hstmt hrest⟩

end

end Mem

end Stmt

end Covered

namespace Walk

variable {ν : Type} {walk : ν → Walk ν ν} {f : ν → ν}

/-- Analysis of a list reports nothing before it gets to this member, number `i`, and then these
names are in force. -/
inductive Arrives (walk : ν → Walk ν ν) (node : ν) (names : Bindings) :
    List ν → Nat → Bindings → Prop
  | here {rest} : Arrives walk node names (node :: rest) 0 names
  | there {first done rest i before next} : (walk first).Passes before done next →
      Arrives walk node names rest i next → Arrives walk node names (first :: rest) (i + 1) before

/-- A change of one member of a list on which nothing is reported before makes just the difference
that it makes for this member. -/
theorem Arrives.absorbs {node : ν} {names before : Bindings} {nodes : List ν} {i : Nat}
    {found : List Diagnostic} (h : Arrives walk node names nodes i before)
    (hwalk : ∀ node, (walk node).Oblivious)
    (hnode : Absorbs (· = names) (walk node) (walk (f node)) found) :
    Absorbs (· = before) (each walk nodes) (each walk (nodes.modify i f)) found := by
  induction h with
  | @here rest =>
    refine (hnode.within _ _).first fun _ _ => ?_
    refine ((oblivious_each hwalk rest).absorbs.within _ _).first fun _ _ => ?_
    exact absorbs_pure
  | @there first done rest i before next hpasses _ ih =>
    refine ((hwalk first).absorbs.within _ _).next (fun _ _ _ hbefore hgives => ?_) fun _ _ =>
      (ih.within _ _).first fun _ _ => absorbs_pure
    exact (hbefore ▸ hgives.of_within).eq_of_passes hpasses

/-- A walk that reports nothing arrives at every member. -/
theorem exists_arrives (happends : ∀ node b, (walk node b).Ensures fun _ => True) {node : ν} :
    {nodes : List ν} → {i : Nat} → {before after : Bindings} → {done : List ν} →
      (each walk nodes).Passes before done after → nodes[i]? = some node →
        ∃ names done' after', Arrives walk node names nodes i before ∧
          (walk node).Passes names done' after'
  | first :: rest, 0, before, _, _, h, hnode => by
    obtain rfl := Option.some.inj hnode
    obtain ⟨done', after', hfirst, -⟩ := (passes_each_cons happends).1 h
    exact ⟨before, done', after', .here, hfirst⟩
  | first :: rest, i + 1, _, _, _, h, hnode => by
    obtain ⟨done, next, hfirst, rest', hrest, -⟩ := (passes_each_cons happends).1 h
    obtain ⟨names, done', after', harrives, hpasses⟩ := exists_arrives happends hrest hnode
    exact ⟨names, done', after', .there hfirst harrives, hpasses⟩

/-- A walk that does the same to a member after a change does the same to the whole list. -/
theorem agrees_each_modify (h : ∀ node, (walk node).Agrees (walk (f node)) fun done done' =>
    done' = f done) : (nodes : List ν) → (i : Nat) →
      (each walk nodes).Agrees (each walk (nodes.modify i f)) fun done done' => done' = done.modify i f
  | [], i => by
    rw [List.modify_nil]
    exact agrees_pure (List.modify_nil f i).symm
  | node :: rest, 0 => by
    refine ((h node).within _ _).bind fun done done' hdone => ?_
    refine ((Agrees.refl (each walk rest)).within _ _).bind fun rest rest' hrest => ?_
    rw [hdone, hrest]
    exact agrees_pure rfl
  | node :: rest, i + 1 => by
    refine ((Agrees.refl (walk node)).within _ _).bind fun done done' hdone => ?_
    refine ((agrees_each_modify h rest i).within _ _).bind fun rest rest' hrest => ?_
    rw [hdone, hrest]
    exact agrees_pure rfl

/-- Of two parts that agree, the second reports nothing where the first reports nothing. -/
theorem Agrees.passes {α β μ : Type} {part : Walk ν α} {other : Walk μ β} {R : α → β → Prop}
    (h : part.Agrees other R) {names after : Bindings} {a : α} (hpasses : part.Passes names a after) :
    ∃ b, R a b ∧ other.Passes names b after := by
  have hout := h names []
  rw [show part names [] = .ok (a, after) [] from hpasses] at hout
  generalize hother : other names [] = result at hout
  cases hout with
  | ok hR =>
    obtain ⟨hR, rfl⟩ := hR
    exact ⟨_, hR, hother⟩

end Walk

/-- The method with another body. -/
def MethodDef.withBody (body : List Stmt) (method : MethodDef) : MethodDef := { method with body }

/-- The class with another body of method `j`. -/
def ClassDef.withBody (j : Nat) (body : List Stmt) (cls : ClassDef) : ClassDef :=
  { cls with methods := cls.methods.modify j (·.withBody body) }

/-- The program with another body of method `j` of class `i`. -/
def Package.withBody (i j : Nat) (body : List Stmt) (package : Package) : Package :=
  { package with classes := package.classes.modify i (·.withBody j body) }

section WithBody

variable (body : List Stmt) (j : Nat)

theorem MethodDef.declare_withBody (c : SymbolId) (className : String) (method : MethodDef) :
    (method.declare c className).Agrees ((method.withBody body).declare c className)
      fun done done' => done' = done.withBody body := by
  refine (declareTyped_agrees _ _ _ _).bind_same fun _ => ?_
  refine ((Agrees.refl _).within _ _).bind_same fun _ => ?_
  refine (agrees_modify _).bind_same fun _ => ?_
  exact agrees_pure rfl

/-- A class is declared without a look at its bodies. -/
theorem ClassDef.declare_withBody (cls : ClassDef) : cls.declare.Agrees (cls.withBody j body).declare
    fun done done' => done' = done.withBody j body := by
  refine agrees_get.bind_same fun names => ?_
  dsimp only [withBody]
  split
  next => exact agrees_lift (Check.agrees_abort _)
  next => exact (agrees_set _).bind_same fun _ => agrees_pure rfl

/-- The members of a class are declared without a look at its bodies. -/
theorem ClassDef.declareMembers_withBody (cls : ClassDef) :
    cls.declareMembers.Agrees (cls.withBody j body).declareMembers
      fun done done' => done' = done.withBody j body := by
  unfold declareMembers
  cases hbound : cls.binding with
  | none =>
    simp only [withBody, hbound]
    exact agrees_pure (by rw [hbound])
  | some c =>
    simp only [withBody, hbound]
    refine ((Agrees.refl _).within _ _).bind_same fun fields => ?_
    have hmethod := MethodDef.declare_withBody body c cls.name
    refine ((agrees_each_modify hmethod cls.methods j).within _ _).bind fun _ _ hmethods => ?_
    rw [hmethods]
    exact agrees_pure rfl

end WithBody

/-- The second program is the first one with `b` at one place in a body where that has `a`. What
`a` and `b` mean there depends on `env`. -/
inductive Package.Replaced (a b : Expr) (env : Env) (package : Package) : Package → Prop
  | body {declared classes : List ClassDef} {cls : ClassDef} {method : MethodDef} {i j : Nat}
      {c m : SymbolId} {params : List ParamDef} {named members mid start names : Bindings}
      {body : List Stmt}
      (hdeclare : (each ClassDef.declare package.classes).Passes .initial declared named)
      (hmembers : (each ClassDef.declareMembers declared).Passes named classes members)
      (hclass : Arrives ClassDef.analyze cls mid classes i members)
      (hcls : cls.binding = some c)
      (hmethod : Arrives (MethodDef.analyze c) method start cls.methods j
        { mid with scope := mid.scope.enterClass ((mid.table.classInfo? c).getD {}).members })
      (hbound : method.binding = some m)
      (hparams : (each ParamDef.enter method.params).Passes
        { start with scope := start.scope.enterMethod } params names)
      (hbody : Stmt.ListReplaced (method.context c m names.table) a b env names method.body body) :
      Replaced a b env package (package.withBody i j body)

section Programs

variable {a b b' : Expr} {env : Env} {found : List Diagnostic}

namespace Stmt

open Replaced ListReplaced

mutual

/-- Whether control runs past a statement does not depend on the expressions in it. -/
theorem Replaced.alwaysReturns {method : MethodContext} {stmt stmt' : Stmt} :
    {env : Env} → {names : Bindings} → Replaced method a b env names stmt stmt' →
      stmt'.alwaysReturns = stmt.alwaysReturns
  | _, _, .block h => h.allReturn
  | _, _, @onTrue _ _ _ _ _ _ _ _ _ none _ => rfl
  | _, _, @onTrue _ _ _ _ _ _ _ _ _ (some other) h =>
    congrArg (· && other.alwaysReturns) h.alwaysReturns
  | _, _, @onFalse _ _ _ _ _ _ _ other _ _ _ _ _ h =>
    congrArg (other.alwaysReturns && ·) h.alwaysReturns
  | _, _, @ifCond _ _ _ _ _ _ _ _ none _ | _, _, @ifCond _ _ _ _ _ _ _ _ (some _) _ => rfl
  | _, _, .init .. | _, _, .assigned _ | _, _, .subscript _ | _, _, .stored _ | _, _, .args _
  | _, _, .returned _ | _, _, .whileCond _ | _, _, .whileBody _ | _, _, .forInit _
  | _, _, .forCond .. | _, _, .forUpdate .. | _, _, .forBody .. => rfl

theorem ListReplaced.allReturn {method : MethodContext} {stmts stmts' : List Stmt} :
    {env : Env} → {names : Bindings} → ListReplaced method a b env names stmts stmts' →
      Stmt.allReturn stmts' = Stmt.allReturn stmts
  | _, _, @head _ _ _ _ _ _ _ [] h => h.alwaysReturns
  | _, _, @head _ _ _ _ _ _ _ (_ :: _) _ => rfl
  | _, _, @tail _ _ _ _ _ _ _ _ (_ :: _) (_ :: _) _ h => h.allReturn

end

end Stmt

/-- Another body makes the difference for a method that its analysis makes where the parameters are
in force. -/
theorem MethodDef.analyze_withBody {c m : SymbolId} {method : MethodDef} {params : List ParamDef}
    {start names : Bindings} {body : List Stmt} (hbound : method.binding = some m)
    (hparams : (each ParamDef.enter method.params).Passes
      { start with scope := start.scope.enterMethod } params names)
    (h : Absorbs (· = names) (Stmt.analyzeAll (method.context c m names.table) method.body)
      (Stmt.analyzeAll (method.context c m names.table) body) found)
    (hreturns : Stmt.allReturn body = Stmt.allReturn method.body) :
    Absorbs (· = start) (method.analyze c) ((method.withBody body).analyze c) found := by
  refine ⟨method.analyze_oblivious c, ?_⟩
  rintro _ done after rfl hdone
  obtain ⟨params', mid, hparams', done, hbody, hend, rfl⟩ := (passes_analyze hbound).1 (hdone [])
  obtain ⟨rfl, rfl⟩ := Prod.mk.inj (EStateM.Result.ok.inj (hparams.symm.trans hparams')).1
  obtain ⟨done', hgives⟩ :=
    h.absorbs names done after rfl ((Stmt.analyzeAll_oblivious _ method.body).gives hbody)
  -- The end of the body is reached neither before nor after the replacement.
  have hkeeps := fun stmts => Stmt.analyzeAll_keeps (method.context c m names.table) stmts names trivial
  have hdone : Stmt.allReturn done' = Stmt.allReturn done := by
    rw [← Stmt.allReturn_erase done', (hkeeps body).ok (hgives []), Stmt.allReturn_erase, hreturns,
      ← Stmt.allReturn_erase method.body, ← (hkeeps method.body).ok hbody, Stmt.allReturn_erase]
  have hend' : Typing.methodEnd { method with params, body := done' } (names.table.typeOf m) = [] := by
    unfold Typing.methodEnd at hend ⊢
    dsimp only at hend ⊢
    rwa [hdone]
  have henter := (oblivious_each ParamDef.enter_oblivious method.params).gives hparams
  refine ⟨{ method with params, body := done', binding := some m }, ?_⟩
  unfold analyze
  rw [show (method.withBody body).binding = some m from hbound]
  exact gives_onScope.next ((henter.within _).next (gives_get.next ((hgives.within _).first
    ((gives_lift (Check.gives_silence hend')).next gives_pure))))

/-- Another body makes the difference for a class that it makes for the method. -/
theorem ClassDef.analyze_withBody {c : SymbolId} {cls : ClassDef} {names : Bindings} {j : Nat}
    {body : List Stmt} (hbound : cls.binding = some c)
    (h : Absorbs
      (· = { names with scope := names.scope.enterClass ((names.table.classInfo? c).getD {}).members })
      (each (MethodDef.analyze c) cls.methods)
      (each (MethodDef.analyze c) (cls.methods.modify j (·.withBody body))) found) :
    Absorbs (· = names) cls.analyze (cls.withBody j body).analyze found := by
  unfold analyze
  simp only [withBody, hbound]
  refine Absorbs.after_get (fun _ => oblivious_onScope.bind fun _ => ((oblivious_each
    (MethodDef.analyze_oblivious c) cls.methods).within _).bind fun _ => oblivious_pure) ?_
  refine oblivious_onScope.absorbs.next ?_ fun _ _ => (h.within _ _).first fun _ _ => absorbs_pure
  rintro _ _ mid rfl hgives
  exact hgives.of_onScope

/-- A class on which nothing is reported has methods on which nothing is reported. -/
theorem ClassDef.methods_of_passes {c : SymbolId} {cls cls' : ClassDef} {names after : Bindings}
    (hbound : cls.binding = some c) (h : cls.analyze.Passes names cls' after) :
    ∃ methods, (each (MethodDef.analyze c) cls.methods).Passes
      { names with scope := names.scope.enterClass ((names.table.classInfo? c).getD {}).members }
      methods after := by
  unfold analyze at h
  rw [hbound] at h
  have hmethods : (each (MethodDef.analyze c) cls.methods).Accepts _ :=
    accepts_passes (MethodDef.analyzeAll_ensures false false c cls.methods)
  obtain ⟨_, _, ⟨rfl, rfl⟩, _, _, rfl, methods, _, hmethods, -, rfl⟩ :=
    ((accepts_get.bind fun _ => accepts_onScope.bind fun _ => (hmethods.within _).bind fun _ =>
      accepts_pure).iff names cls' after).1 h
  exact ⟨methods, hmethods⟩

theorem List.map_modify_of_eq {α β : Type} {f : α → β} {g : α → α} (h : ∀ x, f (g x) = f x) :
    (l : List α) → (i : Nat) → (l.modify i g).map f = l.map f
  | [], i => by rw [List.modify_nil]
  | x :: rest, 0 => congrArg (· :: rest.map f) (h x)
  | x :: rest, i + 1 => congrArg (f x :: ·) (map_modify_of_eq h rest i)

theorem List.exists_getElem?_of_map_eq {α β : Type} {f : α → β} {l l' : List α}
    (h : l.map f = l'.map f) {i : Nat} {x : α} (hi : l'[i]? = some x) :
    ∃ x', l[i]? = some x' ∧ f x' = f x := by
  have hmap : (l.map f)[i]? = some (f x) := by
    rw [h, List.getElem?_map, hi]
    rfl
  rw [List.getElem?_map] at hmap
  exact Option.map_eq_some_iff.1 hmap

namespace Package

variable {package package' : Package}

/-- A program without mistakes has an entry point. -/
theorem completes_of_clean (hclean : package.analyze.log = []) : ∃ classes b i,
    package.Completes classes b [] ∧ package.methods.findIdx? (·.hasEntrySignature) = some i := by
  obtain ⟨found, fatal, hlog, -⟩ | ⟨classes, b, found, h⟩ := package.analyze_cases
  · exact absurd (hlog.symm.trans hclean) (by simp)
  · have hlog := h.log
    rw [hclean] at hlog
    cases hidx : package.methods.findIdx? (·.hasEntrySignature) with
    | none =>
      rw [Completes.entry_eq_none hidx] at hlog
      exact absurd hlog.symm (by simp)
    | some i =>
      obtain ⟨entry, -, hentry⟩ := h.entry_eq hidx
      rw [hentry] at hlog
      obtain rfl : [] = found := hlog
      exact ⟨classes, b, i, h, rfl⟩

/-- Another body is not another entry point. -/
theorem findIdx?_withBody (package : Package) (i j : Nat) (body : List Stmt) :
    (package.withBody i j body).methods.findIdx? (·.hasEntrySignature) =
      package.methods.findIdx? (·.hasEntrySignature) := by
  have hmethods : ∀ cls : ClassDef, (cls.withBody j body).methods.map (·.hasEntrySignature) =
      cls.methods.map (·.hasEntrySignature) := fun cls =>
    List.map_modify_of_eq (f := MethodDef.hasEntrySignature) (g := (·.withBody body)) (fun _ => rfl) _ j
  have hclasses := List.map_modify_of_eq (f := fun cls => cls.methods.map (·.hasEntrySignature))
    hmethods package.classes i
  have hsame : ∀ methods : List MethodDef, methods.findIdx? (·.hasEntrySignature) =
      (methods.map (·.hasEntrySignature)).findIdx? id := fun methods => by
    rw [List.findIdx?_map]
    rfl
  rw [hsame, hsame, List.map_flatMap, List.map_flatMap, List.flatMap_def, List.flatMap_def]
  exact congrArg (·.flatten.findIdx? id) hclasses

/-- If the analysis of the classes reports just this, so does that of the program. -/
theorem analyze_of_run {classes : List ClassDef} {names : Bindings} {i : Nat}
    (hrun : ((ClassDef.analyzeAll package.classes).run .initial).run [] = .ok (classes, names) found)
    (hidx : package.methods.findIdx? (·.hasEntrySignature) = some i) :
    package.analyze.log = found ∧ package.analyze.analysis?.isSome := by
  obtain ⟨_, _, -, -, -, hnone⟩ | ⟨classes', names', found', h⟩ := package.analyze_cases
  · simp [Package.analyze, hrun] at hnone
  · obtain ⟨-, rfl⟩ := EStateM.Result.ok.inj (hrun.symm.trans h.run)
    obtain ⟨entry, -, hentry⟩ := h.entry_eq hidx
    rw [h.log, h.result, hentry]
    exact ⟨rfl, rfl⟩

/-- A program in which one expression is replaced by a mistake reports what that does. -/
theorem Replaced.analyze (h : package.Replaced a b env package') (hclean : package.analyze.log = [])
    (hb : (b.analyze env).Gives (b', .error) found) :
    package'.analyze.log = found ∧ package'.analyze.analysis?.isSome := by
  obtain ⟨done, after, n, hcompletes, hidx⟩ := completes_of_clean hclean
  obtain ⟨_, _, hdeclare', _, _, hmembers', hanalyze⟩ := ClassDef.passes_analyzeAll.1 hcompletes.run
  obtain @⟨declared, classes, cls, method, i, j, c, m, params, named, members, mid, start, names, body,
    hdeclare, hmembers, hclass, hcls, hmethod, hbound, hparams, hbody⟩ := h
  obtain ⟨rfl, rfl⟩ := Prod.mk.inj (EStateM.Result.ok.inj (hdeclare.symm.trans hdeclare')).1
  obtain ⟨rfl, rfl⟩ := Prod.mk.inj (EStateM.Result.ok.inj (hmembers.symm.trans hmembers')).1
  have hbodies := hclass.absorbs ClassDef.analyze_oblivious <| ClassDef.analyze_withBody hcls <|
    hmethod.absorbs (MethodDef.analyze_oblivious c) <|
      MethodDef.analyze_withBody hbound hparams (hbody.absorbs hb) hbody.allReturn
  obtain ⟨done', hgives⟩ := hbodies.absorbs _ _ _ rfl
    ((oblivious_each ClassDef.analyze_oblivious classes).gives hanalyze)
  obtain ⟨_, rfl, hdeclared⟩ :=
    (agrees_each_modify (ClassDef.declare_withBody body j) _ i).passes hdeclare
  obtain ⟨_, rfl, hdeclaredMembers⟩ :=
    (agrees_each_modify (ClassDef.declareMembers_withBody body j) _ i).passes hmembers
  have hrun : ((ClassDef.analyzeAll (package.withBody i j body).classes).run .initial).run [] =
      .ok (done', after) found :=
    bind_eq_ok_iff.2 ⟨_, [], hdeclared, bind_eq_ok_iff.2 ⟨_, [], hdeclaredMembers, hgives []⟩⟩
  exact analyze_of_run hrun ((findIdx?_withBody package i j body).trans hidx)

/-- Anything can be put in the place of any expression of a program without mistakes. -/
theorem exists_replaced (hclean : package.analyze.log = []) (ha : a ∈ package.exprs) :
    ∃ env, ∀ b, ∃ package', package.Replaced a b env package' := by
  obtain ⟨done, after, n, hcompletes, -⟩ := completes_of_clean hclean
  obtain ⟨declared, named, hdeclare, classes, members, hmembers, hanalyze⟩ :=
    ClassDef.passes_analyzeAll.1 hcompletes.run
  obtain ⟨stmt, hstmt, hexpr⟩ := List.mem_flatMap.1 ha
  obtain ⟨expr, hown, ha⟩ := List.mem_flatMap.1 hexpr
  obtain ⟨method, hmethod, hstmt⟩ := List.mem_flatMap.1 hstmt
  obtain ⟨cls, hcls, hmethod⟩ := List.mem_flatMap.1 hmethod
  obtain ⟨i, hi⟩ := List.mem_iff_getElem?.1 hcls
  obtain ⟨j, hj⟩ := List.mem_iff_getElem?.1 hmethod
  have hsame := ClassDef.unbind_of_passes hdeclare hmembers
  have hknows := ClassDef.knows_of_passes hdeclare hmembers
  obtain ⟨cls', hi', heq⟩ := List.exists_getElem?_of_map_eq hsame hi
  obtain ⟨method', hj', heq'⟩ := List.exists_getElem?_of_map_eq
    (show cls'.methods.map MethodDef.unbind = cls.methods.map MethodDef.unbind from
      congrArg ClassDef.methods heq) hj
  obtain ⟨c, hdeclared⟩ := hknows.describes.declared cls'
    (List.mem_append_right _ (List.mem_of_getElem? hi'))
  obtain ⟨m, ids, hbound⟩ := hdeclared.methods method' (List.mem_of_getElem? hj')
  obtain ⟨mid, _, _, hclass, hpasses⟩ := exists_arrives ClassDef.analyze_appends hanalyze hi'
  obtain ⟨_, hmethods⟩ := ClassDef.methods_of_passes hdeclared.bound hpasses
  obtain ⟨start, _, _, harrives, hpasses⟩ := exists_arrives (MethodDef.analyze_appends c) hmethods hj'
  obtain ⟨params, names, hparams, body, hbody, -⟩ := (MethodDef.passes_analyze hbound.bound).1 hpasses
  have hbodies : method'.body = method.body :=
    show method'.unbind.body = method.unbind.body from congrArg MethodDef.body heq'
  obtain ⟨env, hplaces⟩ := Stmt.listPlaces_of_mem_stmts hown ha hbody (hbodies ▸ hstmt)
  refine ⟨env, fun b => ?_⟩
  obtain ⟨body', hbody'⟩ := hplaces b
  exact ⟨_, .body hdeclare hmembers hclass hdeclared.bound harrives hbound.bound hparams hbody'⟩

/-- In a program without mistakes, anything can be put in the place of any expression. If that is a
mistake there, the analysis of the program is not cut short and reports what the analysis of the
mistake does, and nothing else. -/
theorem reports_of_one_mistake (hclean : package.analyze.log = []) :
    (∀ a ∈ package.exprs, ∃ env, ∀ b, ∃ package', package.Replaced a b env package') ∧
      ∀ a b env package', package.Replaced a b env package' → ∀ b' found,
        b.analyze env [] = .ok (b', .error) found →
          package'.analyze.log = found ∧ package'.analyze.analysis?.isSome :=
  ⟨fun _ => exists_replaced hclean, fun _ b env _ h _ _ hb =>
    h.analyze hclean ((b.analyze_oblivious env).gives hb)⟩

/-- A program that prints `1 + 2`. -/
def adding : Package where
  classes := [{
    name := "Main"
    fields := []
    methods := [.main [.println (.binary {} .add (.int {} 1) (.int {} 2))]] }]

/-- With `-true` in the place of `2`, only the sign before `true` is reported. -/
theorem adding_reports_sign : ∃ env package',
    adding.Replaced (.int {} 2) (.unary {} .neg (.bool {} true)) env package' ∧
      package'.analyze.log = [.invalidOperand "-" "unary" {}] ∧
        package'.analyze.analysis?.isSome := by
  have hclean : adding.analyze.log = [] := by decide +kernel
  have hadding := reports_of_one_mistake hclean
  obtain ⟨env, hplaces⟩ := hadding.1 (.int {} 2) (.tail _ (.tail _ (.head _)))
  obtain ⟨package', hreplaced⟩ := hplaces (.unary {} .neg (.bool {} true))
  exact ⟨env, package', hreplaced, hadding.2 _ _ env package' hreplaced _ _ rfl⟩

end Package

end Programs

end SmallJava
