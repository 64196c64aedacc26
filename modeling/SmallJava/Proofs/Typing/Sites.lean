import SmallJava.Proofs.Declaration.Confined
import SmallJava.Proofs.Reporting.Parts

namespace SmallJava

namespace Stmt

mutual

/-- The expressions in a statement that stand in no other expression, each with the local
    variables in force where it stands. -/
def exprSites (locals : List SymbolId) : Stmt → List (List SymbolId × Expr)
  | block _ stmts => allExprSites locals stmts
  | ifElse _ cond onTrue onFalse =>
    (locals, cond) :: onTrue.exprSites locals ++ optionExprSites locals onFalse
  | .while _ cond body => (locals, cond) :: body.exprSites locals
  | .for _ init cond update body =>
    let looping := locals ++ optionBinds init
    cond.toList.map (looping, ·) ++ optionExprSites locals init ++ optionExprSites looping update ++
      body.exprSites (looping ++ optionBinds update)
  | stmt => stmt.own.map (locals, ·)

def optionExprSites (locals : List SymbolId) : Option Stmt → List (List SymbolId × Expr)
  | none => []
  | some stmt => stmt.exprSites locals

def allExprSites (locals : List SymbolId) : List Stmt → List (List SymbolId × Expr)
  | [] => []
  | stmt :: rest => stmt.exprSites locals ++ allExprSites (locals ++ stmt.binds) rest

end

end Stmt

/-- All expressions in a method, each with the local variables in force where it stands. -/
def MethodDef.exprSites (method : MethodDef) : List (List SymbolId × Expr) :=
  (Stmt.allExprSites [] method.body).flatMap fun site => site.2.exprs.map (site.1, ·)

namespace Stmt

mutual

/-- All expressions of a statement have their sites. -/
theorem exprSites_map : (stmt : Stmt) → (locals : List SymbolId) →
    (stmt.exprSites locals).map (·.2) = stmt.stmts.flatMap own
  | block _ body, locals => allExprSites_map body locals
  | varDecl .., _ | assign .., _ | indexAssign .., _ | call .., _ | .return .., _ => by
    simp [exprSites, stmts, Function.comp_def]
  | ifElse _ cond onTrue onFalse, locals => by
    simp [exprSites, stmts, own, exprSites_map onTrue, optionExprSites_map onFalse]
  | .while _ cond body, locals => by simp [exprSites, stmts, own, exprSites_map body]
  | .for _ init cond update body, locals => by
    simp [exprSites, stmts, own, optionExprSites_map init, optionExprSites_map update,
      exprSites_map body, Function.comp_def]

theorem optionExprSites_map : (stmt : Option Stmt) → (locals : List SymbolId) →
    (optionExprSites locals stmt).map (·.2) = (optionStmts stmt).flatMap own
  | none, _ => rfl
  | some stmt, locals => exprSites_map stmt locals

theorem allExprSites_map : (stmts : List Stmt) → (locals : List SymbolId) →
    (allExprSites locals stmts).map (·.2) = (allStmts stmts).flatMap own
  | [], _ => rfl
  | stmt :: rest, locals => by
    simp [allExprSites, allStmts, exprSites_map stmt, allExprSites_map rest]

end

end Stmt

/-- All expressions of a program have their sites. -/
theorem Package.exprs_eq (package : Package) :
    package.exprs = package.methods.flatMap fun method => method.exprSites.map (·.2) := by
  have hmethod : ∀ method : MethodDef, method.exprSites.map (·.2) =
      (Stmt.allStmts method.body).flatMap fun stmt => stmt.own.flatMap (·.exprs) := by
    intro method
    rw [← List.flatMap_assoc, ← Stmt.allExprSites_map method.body []]
    simp [MethodDef.exprSites, List.map_flatMap, List.flatMap_map, Function.comp_def]
  simp only [hmethod, exprs, stmts, methods, List.flatMap_assoc]

section Typed

variable {Γ : Context} {vars : List SymbolId}

/-- An argument of a parameter that is not void has a value. -/
theorem Expr.ArgsFit.hasValue_of_mem {arg : Expr} {args : List Expr} {params : List SymbolId}
    (h : Expr.ArgsFit Γ vars args params)
    (hparams : ∀ p ∈ params, (Γ.sig.typeOf p).avoidsVoid = true) (hmem : arg ∈ args) :
    arg.HasValue Γ vars := by
  induction args generalizing params with
  | nil => cases hmem
  | cons first rest ih =>
    cases params with
    | nil => cases h
    | cons p params =>
      obtain ⟨hfirst, hrest⟩ := h.hasValue (hparams p List.mem_cons_self)
      obtain rfl | hmem := List.mem_cons.1 hmem
      · exact hfirst
      · exact ih hrest (fun other hmem => hparams other (List.mem_cons_of_mem _ hmem)) hmem

namespace Expr

mutual

/-- In an expression with a value, every expression has one. -/
theorem HasValue.inner (hvoid : Γ.sig.VoidFree) : (expr : Expr) → expr.HasValue Γ vars →
    ∀ e ∈ expr.inner, e.HasValue Γ vars
  | .int .., _ | .bool .., _ | .null _, _ | .ref .., _ | .newObject .., _ => by
    intro e hmem
    cases hmem
  | .unary _ _ operand, h => HasValue.exprs hvoid operand h.unary
  | .binary _ _ left right, h => by
    intro e hmem
    obtain hmem | hmem := List.mem_append.1 hmem
    · exact HasValue.exprs hvoid left h.binary.1 e hmem
    · exact HasValue.exprs hvoid right h.binary.2 e hmem
  | .ternary _ cond onTrue onFalse, h => by
    intro e hmem
    obtain ⟨hcond, hTrue, hFalse⟩ := h.ternary
    obtain hmem | hmem := List.mem_append.1 hmem
    · obtain hmem | hmem := List.mem_append.1 hmem
      · exact HasValue.exprs hvoid cond hcond e hmem
      · exact HasValue.exprs hvoid onTrue hTrue e hmem
    · exact HasValue.exprs hvoid onFalse hFalse e hmem
  | .index _ _ subscript, h => HasValue.exprs hvoid subscript h.index.2
  | .call _ _ args, h => by
    obtain ⟨m, -, hargs, -⟩ := h.call
    exact ArgsFit.exprs hvoid args _ hargs (hvoid.params m)
  | .newArray _ _ size, h => HasValue.exprs hvoid size h.newArray

theorem HasValue.exprs (hvoid : Γ.sig.VoidFree) (expr : Expr) (h : expr.HasValue Γ vars) :
    ∀ e ∈ expr.exprs, e.HasValue Γ vars := by
  intro e hmem
  obtain rfl | hmem := List.mem_cons.1 hmem
  · exact h
  · exact HasValue.inner hvoid expr h e hmem

/-- All expressions in arguments that fit have values. -/
theorem ArgsFit.exprs (hvoid : Γ.sig.VoidFree) : (args : List Expr) → (params : List SymbolId) →
    ArgsFit Γ vars args params → (∀ p ∈ params, (Γ.sig.typeOf p).avoidsVoid = true) →
      ∀ e ∈ allExprs args, e.HasValue Γ vars
  | [], _, _, _ => fun e hmem => by cases hmem
  | arg :: rest, [], h, _ => by cases h
  | arg :: rest, p :: params, h, hparams => by
    intro e hmem
    obtain ⟨harg, hrest⟩ := h.hasValue (hparams p List.mem_cons_self)
    obtain hmem | hmem := List.mem_append.1 hmem
    · exact HasValue.exprs hvoid arg harg e hmem
    · exact ArgsFit.exprs hvoid rest params hrest
        (fun other hmem => hparams other (List.mem_cons_of_mem _ hmem)) e hmem

end

end Expr

namespace Stmt

mutual

/-- In a well-typed statement, expressions have values. -/
theorem WellTyped.hasValue (hvoid : Γ.sig.VoidFree) : {stmt : Stmt} → {locals : List SymbolId} →
    stmt.WellTyped Γ locals → ∀ site ∈ stmt.exprSites locals,
      site.2.HasValue Γ (Γ.params ++ site.1)
  | block _ stmts, _ => by
    intro h
    cases h with
    | block hstmts => exact hstmts.hasValue hvoid
  | varDecl .., _ => by
    intro h site hmem
    obtain rfl := List.mem_singleton.1 hmem
    cases h with
    | varDecl _ hkind _ hinit hfits =>
      exact ⟨_, hinit, hfits.ne_void (hvoid.symbols _ _ hkind rfl)⟩
  | assign .., _ => by
    intro h site hmem
    obtain rfl := List.mem_singleton.1 hmem
    cases h with
    | assign htarget _ hvalue hfits =>
      exact ⟨_, hvalue, hfits.ne_void (htarget.avoidsVoid hvoid)⟩
  | indexAssign .., _ => by
    intro h site hmem
    cases h with
    | indexAssign htarget hsubscript hvalue hfits =>
      obtain rfl | hmem := List.mem_cons.1 hmem
      · exact ⟨_, hsubscript, nofun⟩
      · obtain rfl := List.mem_singleton.1 hmem
        have harray := htarget.avoidsVoid hvoid
        exact ⟨_, hvalue, hfits.ne_void harray⟩
  | call _ _ args, _ => by
    intro h site hmem
    cases h with
    | @call _ _ _ _ m _ hargs =>
      obtain ⟨arg, harg, rfl⟩ := List.mem_map.1 hmem
      exact hargs.hasValue_of_mem (hvoid.params m) harg
  | .return _ none, _ => fun _ site hmem => by cases hmem
  | .return _ (some value), _ => by
    intro h site hmem
    obtain rfl := List.mem_singleton.1 hmem
    cases h with
    | returnValue hreturns hvalue hfits => exact ⟨_, hvalue, hfits.ne_void_of_ne hreturns⟩
  | ifElse _ cond onTrue onFalse, _ => by
    intro h site hmem
    cases h with
    | ifElse hcond hTrue hFalse =>
      obtain hmem | hmem := List.mem_append.1 hmem
      · obtain rfl | hmem := List.mem_cons.1 hmem
        · exact ⟨_, hcond, nofun⟩
        · exact hTrue.typed.hasValue hvoid site hmem
      · exact hasValue_of_option hvoid (fun stmt hmem => (hFalse stmt hmem).typed) site hmem
  | .while _ cond body, _ => by
    intro h site hmem
    cases h with
    | «while» hcond hbody =>
      obtain rfl | hmem := List.mem_cons.1 hmem
      · exact ⟨_, hcond, nofun⟩
      · exact hbody.typed.hasValue hvoid site hmem
  | .for _ init cond update body, _ => by
    intro h site hmem
    cases h with
    | «for» hinit hcond hupdate hbody =>
      obtain hmem | hmem := List.mem_append.1 hmem
      · obtain hmem | hmem := List.mem_append.1 hmem
        · obtain hmem | hmem := List.mem_append.1 hmem
          · obtain ⟨expr, hexpr, rfl⟩ := List.mem_map.1 hmem
            exact ⟨_, hcond expr (by simpa using hexpr), nofun⟩
          · exact hasValue_of_option hvoid hinit site hmem
        · exact hasValue_of_option hvoid hupdate site hmem
      · exact hbody.typed.hasValue hvoid site hmem

theorem hasValue_of_option (hvoid : Γ.sig.VoidFree) : {stmt : Option Stmt} →
    {locals : List SymbolId} → (∀ s ∈ stmt, s.WellTyped Γ locals) →
      ∀ site ∈ optionExprSites locals stmt, site.2.HasValue Γ (Γ.params ++ site.1)
  | none, _ => fun _ site hmem => by cases hmem
  | some stmt, _ => fun h => (h stmt rfl).hasValue hvoid

/-- All expressions in well-typed statements have values where they stand. -/
theorem ListWellTyped.hasValue (hvoid : Γ.sig.VoidFree) : {stmts : List Stmt} →
    {locals : List SymbolId} → ListWellTyped Γ locals stmts →
      ∀ site ∈ allExprSites locals stmts, site.2.HasValue Γ (Γ.params ++ site.1)
  | [], _ => fun _ site hmem => by cases hmem
  | stmt :: rest, _ => by
    intro h site hmem
    cases h with
    | cons hstmt hrest =>
      obtain hmem | hmem := List.mem_append.1 hmem
      · exact hstmt.hasValue hvoid site hmem
      · exact hrest.hasValue hvoid site hmem

end

end Stmt

end Typed

end SmallJava
