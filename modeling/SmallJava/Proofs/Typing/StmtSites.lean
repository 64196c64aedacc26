import SmallJava.Proofs.Reporting.Parts
import SmallJava.Proofs.Typing.Discipline
import SmallJava.Proofs.Typing.Judgement

namespace SmallJava

namespace Stmt

mutual

/-- The statement and all statements in it, each with the local variables in force where it
    stands. -/
def stmtSites (locals : List SymbolId) : Stmt → List (List SymbolId × Stmt)
  | block span body => (locals, block span body) :: allStmtSites locals body
  | ifElse span cond onTrue onFalse =>
    (locals, ifElse span cond onTrue onFalse) :: onTrue.stmtSites locals ++
      optionStmtSites locals onFalse
  | .while span cond body => (locals, .while span cond body) :: body.stmtSites locals
  | .for span init cond update body =>
    let looping := locals ++ optionBinds init
    (locals, .for span init cond update body) :: optionStmtSites locals init ++
      optionStmtSites looping update ++ body.stmtSites (looping ++ optionBinds update)
  | stmt => [(locals, stmt)]

def optionStmtSites (locals : List SymbolId) : Option Stmt → List (List SymbolId × Stmt)
  | none => []
  | some stmt => stmt.stmtSites locals

def allStmtSites (locals : List SymbolId) : List Stmt → List (List SymbolId × Stmt)
  | [] => []
  | stmt :: rest => stmt.stmtSites locals ++ allStmtSites (locals ++ stmt.binds) rest

end

end Stmt

/-- All statements of a method, each with the local variables in force where it stands. -/
def MethodDef.stmtSites (method : MethodDef) : List (List SymbolId × Stmt) :=
  Stmt.allStmtSites [] method.body

namespace Stmt

mutual

/-- All statements in a statement have their sites. -/
theorem stmtSites_map : (stmt : Stmt) → (locals : List SymbolId) →
    (stmt.stmtSites locals).map (·.2) = stmt.stmts
  | block _ body, locals => by simp [stmtSites, stmts, allStmtSites_map body]
  | varDecl .., _ | assign .., _ | indexAssign .., _ | call .., _ | .return .., _ => rfl
  | ifElse _ _ onTrue onFalse, locals => by
    simp [stmtSites, stmts, stmtSites_map onTrue, optionStmtSites_map onFalse]
  | .while _ _ body, locals => by simp [stmtSites, stmts, stmtSites_map body]
  | .for _ init _ update body, locals => by
    simp [stmtSites, stmts, optionStmtSites_map init, optionStmtSites_map update,
      stmtSites_map body]

theorem optionStmtSites_map : (stmt : Option Stmt) → (locals : List SymbolId) →
    (optionStmtSites locals stmt).map (·.2) = optionStmts stmt
  | none, _ => rfl
  | some stmt, locals => stmtSites_map stmt locals

theorem allStmtSites_map : (stmts : List Stmt) → (locals : List SymbolId) →
    (allStmtSites locals stmts).map (·.2) = allStmts stmts
  | [], _ => rfl
  | stmt :: rest, locals => by
    simp [allStmtSites, allStmts, stmtSites_map stmt, allStmtSites_map rest]

end

section Typed

variable {Γ : Context}

mutual

/-- The statements in a well-typed statement are well typed where they stand. -/
theorem WellTyped.stmtSites : {stmt : Stmt} → {locals : List SymbolId} →
    stmt.WellTyped Γ locals → ∀ site ∈ stmt.stmtSites locals, site.2.WellTyped Γ site.1
  | block _ body, _ => by
    intro h site hmem
    obtain rfl | hmem := List.mem_cons.1 hmem
    · exact h
    · cases h with
      | block hbody => exact hbody.stmtSites site hmem
  | varDecl .., _ | assign .., _ | indexAssign .., _ | call .., _ | .return .., _ =>
    fun h site hmem => by
      obtain rfl := List.mem_singleton.1 hmem
      exact h
  | ifElse _ _ onTrue onFalse, _ => by
    intro h site hmem
    obtain hmem | hmem := List.mem_append.1 hmem
    · obtain rfl | hmem := List.mem_cons.1 hmem
      · exact h
      · cases h with
        | ifElse _ hTrue _ => exact hTrue.typed.stmtSites site hmem
    · cases h with
      | ifElse _ _ hFalse => exact stmtSites_of_option (fun s hs => (hFalse s hs).typed) site hmem
  | .while _ _ body, _ => by
    intro h site hmem
    obtain rfl | hmem := List.mem_cons.1 hmem
    · exact h
    · cases h with
      | «while» _ hbody => exact hbody.typed.stmtSites site hmem
  | .for _ init _ update body, _ => by
    intro h site hmem
    obtain hmem | hmem := List.mem_append.1 hmem
    · obtain hmem | hmem := List.mem_append.1 hmem
      · obtain rfl | hmem := List.mem_cons.1 hmem
        · exact h
        · cases h with
          | «for» hinit _ _ _ => exact stmtSites_of_option hinit site hmem
      · cases h with
        | «for» _ _ hupdate _ => exact stmtSites_of_option hupdate site hmem
    · cases h with
      | «for» _ _ _ hbody => exact hbody.typed.stmtSites site hmem

theorem stmtSites_of_option : {stmt : Option Stmt} → {locals : List SymbolId} →
    (∀ s ∈ stmt, s.WellTyped Γ locals) →
      ∀ site ∈ optionStmtSites locals stmt, site.2.WellTyped Γ site.1
  | none, _ => fun _ site hmem => by cases hmem
  | some stmt, _ => fun h => (h stmt rfl).stmtSites

/-- All statements in well-typed statements are well typed where they stand. -/
theorem ListWellTyped.stmtSites : {stmts : List Stmt} → {locals : List SymbolId} →
    ListWellTyped Γ locals stmts → ∀ site ∈ allStmtSites locals stmts, site.2.WellTyped Γ site.1
  | [], _ => fun _ site hmem => by cases hmem
  | stmt :: rest, _ => by
    intro h site hmem
    cases h with
    | cons hstmt hrest =>
      obtain hmem | hmem := List.mem_append.1 hmem
      · exact hstmt.stmtSites site hmem
      · exact hrest.stmtSites site hmem

end

end Typed

/-- The statements that a statement is made of. -/
def parts : Stmt → List Stmt
  | block _ body => body
  | ifElse _ _ onTrue onFalse => onTrue :: onFalse.toList
  | .while _ _ body => [body]
  | .for _ init _ update body => init.toList ++ update.toList ++ [body]
  | _ => []

/-- What is so of a statement is so of its parts. -/
def Descends (P : Stmt → Prop) : Prop :=
  ∀ stmt, P stmt → ∀ part ∈ stmt.parts, P part

namespace Descends

variable {P : Stmt → Prop}

mutual

/-- It is so of all statements in the statement then. -/
theorem of_mem_stmts (hP : Descends P) : (stmt : Stmt) → P stmt → ∀ s ∈ stmt.stmts, P s
  | block span body => by
    intro h s hmem
    obtain rfl | hmem := List.mem_cons.1 hmem
    · exact h
    · exact hP.of_mem_allStmts body (hP _ h) s hmem
  | varDecl .. | assign .. | indexAssign .. | call .. | .return .. => by
    intro h s hmem
    obtain rfl := List.mem_singleton.1 hmem
    exact h
  | ifElse _ _ onTrue onFalse => by
    intro h s hmem
    obtain hmem | hmem := List.mem_append.1 hmem
    · obtain rfl | hmem := List.mem_cons.1 hmem
      · exact h
      · exact hP.of_mem_stmts onTrue (hP _ h _ (by simp [parts])) s hmem
    · exact hP.of_mem_optionStmts onFalse (fun part hpart => hP _ h part (by simp_all [parts])) s hmem
  | .while _ _ body => by
    intro h s hmem
    obtain rfl | hmem := List.mem_cons.1 hmem
    · exact h
    · exact hP.of_mem_stmts body (hP _ h _ (by simp [parts])) s hmem
  | .for _ init _ update body => by
    intro h s hmem
    obtain hmem | hmem := List.mem_append.1 hmem
    · obtain hmem | hmem := List.mem_append.1 hmem
      · obtain rfl | hmem := List.mem_cons.1 hmem
        · exact h
        · exact hP.of_mem_optionStmts init (fun part hpart => hP _ h part (by simp_all [parts])) s hmem
      · exact hP.of_mem_optionStmts update (fun part hpart => hP _ h part (by simp_all [parts])) s hmem
    · exact hP.of_mem_stmts body (hP _ h _ (by simp [parts])) s hmem

theorem of_mem_optionStmts (hP : Descends P) : (stmt : Option Stmt) → (∀ part ∈ stmt, P part) →
    ∀ s ∈ optionStmts stmt, P s
  | none => fun _ s hmem => by cases hmem
  | some stmt => fun h => hP.of_mem_stmts stmt (h stmt rfl)

/-- What passes from statements to their parts holds of all statements in a list. -/
theorem of_mem_allStmts (hP : Descends P) : (stmts : List Stmt) → (∀ part ∈ stmts, P part) →
    ∀ s ∈ allStmts stmts, P s
  | [] => fun _ s hmem => by cases hmem
  | stmt :: rest => by
    intro h s hmem
    obtain hmem | hmem := List.mem_append.1 hmem
    · exact hP.of_mem_stmts stmt (h stmt List.mem_cons_self) s hmem
    · exact hP.of_mem_allStmts rest (fun part hpart => h part (List.mem_cons_of_mem _ hpart)) s hmem

end

end Descends

theorem declared_sublist_all {stmts : List Stmt} {stmt : Stmt} (hmem : stmt ∈ stmts) :
    stmt.declared.Sublist (allDeclared stmts) := by
  induction stmts with
  | nil => cases hmem
  | cons first rest ih =>
    obtain rfl | hmem := List.mem_cons.1 hmem
    · exact List.sublist_append_left _ _
    · exact (ih hmem).trans (List.sublist_append_right _ _)

/-- What the parts of a statement declare it declares. -/
theorem declared_sublist {stmt part : Stmt} (hpart : part ∈ stmt.parts) :
    part.declared.Sublist stmt.declared := by
  cases stmt with
  | block => exact declared_sublist_all hpart
  | varDecl | assign | indexAssign | call | «return» => cases hpart
  | ifElse _ _ onTrue onFalse =>
    obtain rfl | hpart := List.mem_cons.1 hpart
    · exact List.sublist_append_left _ _
    · obtain rfl : onFalse = some part := by simpa using hpart
      exact List.sublist_append_right _ _
  | «while» =>
    obtain rfl := List.mem_singleton.1 hpart
    exact .refl _
  | «for» _ init _ update =>
    simp only [parts, List.mem_append, Option.mem_toList, List.mem_singleton] at hpart
    obtain (hpart | hpart) | rfl := hpart
    · obtain rfl : init = some part := hpart
      exact List.sublist_append_left _ _
    · obtain rfl : update = some part := hpart
      exact (List.sublist_append_left _ _).trans (List.sublist_append_right _ _)
    · exact (List.sublist_append_right _ _).trans (List.sublist_append_right _ _)

/-- A statement among others declares some of what they declare. -/
theorem nodup_declared {stmts : List Stmt} (hnodup : (allDeclared stmts).Nodup) :
    ∀ stmt ∈ allStmts stmts, stmt.declared.Nodup :=
  have hdescends : Descends fun stmt => stmt.declared.Nodup :=
    fun _ hnodup _ hpart => hnodup.sublist (declared_sublist hpart)
  hdescends.of_mem_allStmts stmts fun _ hmem => hnodup.sublist (declared_sublist_all hmem)

/-- Statements with plain updates have plain updates one by one. -/
theorem plainUpdates_of_mem_all {stmts : List Stmt} (hplain : allPlainUpdates stmts = true)
    {stmt : Stmt} (hmem : stmt ∈ stmts) : stmt.plainUpdates = true := by
  induction stmts with
  | nil => cases hmem
  | cons first rest ih =>
    obtain ⟨hfirst, hrest⟩ := Bool.and_eq_true_iff.1 (by simpa [allPlainUpdates] using hplain)
    obtain rfl | hmem := List.mem_cons.1 hmem
    · exact hfirst
    · exact ih hrest hmem

/-- If no loop in a statement declares a variable between its rounds, none does in its parts. -/
theorem plainUpdates_of_mem_parts {stmt part : Stmt} (hplain : stmt.plainUpdates = true)
    (hpart : part ∈ stmt.parts) : part.plainUpdates = true := by
  cases stmt with
  | block => exact plainUpdates_of_mem_all hplain hpart
  | varDecl | assign | indexAssign | call | «return» => cases hpart
  | ifElse _ _ onTrue onFalse =>
    obtain ⟨hTrue, hFalse⟩ := Bool.and_eq_true_iff.1 (by simpa [plainUpdates] using hplain)
    obtain rfl | hpart := List.mem_cons.1 hpart
    · exact hTrue
    · obtain rfl : onFalse = some part := by simpa using hpart
      exact hFalse
  | «while» =>
    obtain rfl := List.mem_singleton.1 hpart
    exact hplain
  | «for» _ init _ update =>
    obtain ⟨hinit, -, hupdate, hbody⟩ := plain_of_plainUpdates hplain
    simp only [parts, List.mem_append, Option.mem_toList, List.mem_singleton] at hpart
    obtain (hpart | hpart) | rfl := hpart
    · obtain rfl : init = some part := hpart
      exact hinit
    · obtain rfl : update = some part := hpart
      exact hupdate
    · exact hbody

theorem plainUpdates_of_mem_allStmts {stmts : List Stmt} (hplain : allPlainUpdates stmts = true) :
    ∀ stmt ∈ allStmts stmts, stmt.plainUpdates = true :=
  have hdescends : Descends fun stmt => stmt.plainUpdates = true :=
    fun _ hplain _ hpart => plainUpdates_of_mem_parts hplain hpart
  hdescends.of_mem_allStmts stmts fun _ hmem => plainUpdates_of_mem_all hplain hmem

end Stmt

end SmallJava
