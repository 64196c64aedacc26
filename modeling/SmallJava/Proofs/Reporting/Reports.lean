import SmallJava.Analysis.Package
import SmallJava.Proofs.Outcome

/-! What analysis may report at a time, and in which order: mistakes in types as long as it goes on,
and a name that cannot be bound at its end. -/

namespace SmallJava

/-- Nothing but mistakes in types. -/
def Diagnostic.AllTyping (found : List Diagnostic) : Prop := ∀ d ∈ found, d.kind = .typing

/-- A name that cannot be bound, so that analysis cannot go on. A missing entry point is found when
there is nothing left to analyse. -/
structure Diagnostic.CutsShort (d : Diagnostic) : Prop where
  kind : d.kind = .identification
  goesOn : ∀ span, d ≠ .missingEntryPoint span

/-- If there is no result, the reason cuts analysis short. -/
def Except.CutsShort {α : Type} (result : Except Diagnostic α) : Prop :=
  ∀ fatal, result = .error fatal → fatal.CutsShort

variable {μ ν α β : Type}

/-- Analysis reports mistakes in types only, up to the name that it cannot bind if it ends early. A
result has the property `R`, and also `S` if nothing is reported. -/
structure Check.Reports (part : Check ν α) (R S : α → Prop) : Prop where
  ok : ∀ {log log' : Diagnostic.Log} {a : α}, part log = .ok a log' →
    ∃ found, log' = log ++ found ∧ Diagnostic.AllTyping found ∧ R a ∧ (found = [] → S a)
  error : ∀ {log log' : Diagnostic.Log} {node : ν}, part log = .error node log' →
    ∃ found fatal, log' = log ++ found ++ [fatal] ∧ Diagnostic.AllTyping found ∧ fatal.CutsShort

namespace Check

variable {R S : α → Prop} {R' S' : β → Prop}

theorem Reports.weaken {part : Check ν α} {T U : α → Prop} (h : part.Reports R S)
    (himp : ∀ a, R a → T a) (himp' : ∀ a, R a → S a → U a) : part.Reports T U where
  ok := fun hrun => by
    obtain ⟨found, hlog, htyping, hR, hS⟩ := h.ok hrun
    exact ⟨found, hlog, htyping, himp _ hR, fun hnone => himp' _ hR (hS hnone)⟩
  error := h.error

theorem reports_pure {a : α} (hR : R a) (hS : S a) : Reports (pure a : Check ν α) R S where
  ok := by
    rintro log _ _ ⟨⟩
    exact ⟨[], (List.append_nil log).symm, List.forall_mem_nil _, hR, fun _ => hS⟩
  error := nofun

/-- What two parts report stands in the order of the parts. -/
theorem Reports.bind {part : Check ν α} {f : α → Check ν β} (hpart : part.Reports R S)
    (hf : ∀ a, R a → (f a).Reports R' fun b => S a → S' b) : Reports (part >>= f) R' S' where
  ok := by
    intro log log' b hrun
    obtain ⟨a, mid, hfirst, hrest⟩ := bind_eq_ok_iff.1 hrun
    obtain ⟨found, rfl, htyping, hR, hS⟩ := hpart.ok hfirst
    obtain ⟨found', rfl, htyping', hR', hS'⟩ := (hf a hR).ok hrest
    refine ⟨found ++ found', List.append_assoc .., List.forall_mem_append.2 ⟨htyping, htyping'⟩, hR',
      fun hnone => ?_⟩
    obtain ⟨rfl, rfl⟩ := List.append_eq_nil_iff.1 hnone
    exact hS' rfl (hS rfl)
  error := by
    intro log log' node hrun
    obtain hfirst | ⟨a, mid, hfirst, hrest⟩ := bind_eq_error_iff.1 hrun
    · exact hpart.error hfirst
    · obtain ⟨found, rfl, htyping, hR, -⟩ := hpart.ok hfirst
      obtain ⟨found', fatal, rfl, htyping', hfatal⟩ := (hf a hR).error hrest
      exact ⟨found ++ found', fatal, by simp only [List.append_assoc],
        List.forall_mem_append.2 ⟨htyping, htyping'⟩, hfatal⟩

theorem reports_report {found : List Diagnostic} (htyping : Diagnostic.AllTyping found) :
    Reports (report found : Check ν Unit) (fun _ => True) fun _ => found = [] where
  ok := by
    rintro log _ _ ⟨⟩
    exact ⟨found, rfl, htyping, trivial, id⟩
  error := nofun

theorem reports_abort {node : ν} {fatal : Diagnostic} (hfatal : fatal.CutsShort) :
    Reports (abort node fatal) R S where
  ok := nofun
  error := by
    rintro log _ _ ⟨⟩
    exact ⟨[], fatal, by rw [List.append_nil], List.forall_mem_nil _, hfatal⟩

theorem reports_orAbort {node : ν} {result : Except Diagnostic α} (hresult : Except.CutsShort result) :
    Reports (orAbort node result) (fun a => result = .ok a) fun _ => True := by
  cases result with
  | ok a => exact reports_pure rfl trivial
  | error fatal => exact reports_abort (hresult fatal rfl)

theorem Reports.within {part : Check μ α} (h : part.Reports R S) (rebuild : μ → ν) :
    Reports (within rebuild part) R S where
  ok := fun hrun => h.ok (within_eq_ok_iff.1 hrun)
  error := by
    intro log log' node hrun
    obtain ⟨found, hpart, rfl⟩ := within_eq_error_iff.1 hrun
    exact h.error hpart

theorem reports_conclude {verdict : Ty × List Diagnostic} (htyping : Diagnostic.AllTyping verdict.2) :
    Reports (conclude verdict : Check ν Ty) (fun ty => ty = verdict.1) fun _ => verdict.2 = [] :=
  (reports_report htyping).bind fun _ _ => reports_pure rfl id

end Check

/-- Like `Check.Reports`, with whatever names and declarations analysis starts. -/
def Walk.Reports (part : Walk ν α) (R S : α → Prop) : Prop :=
  ∀ b, Check.Reports (part b) (fun result => R result.1) fun result => S result.1

namespace Walk

variable {R S : α → Prop} {R' S' : β → Prop}

theorem Reports.weaken {part : Walk ν α} {T U : α → Prop} (h : part.Reports R S)
    (himp : ∀ a, R a → T a) (himp' : ∀ a, R a → S a → U a) : part.Reports T U :=
  fun b => (h b).weaken (fun _ => himp _) fun _ => himp' _

theorem reports_pure {a : α} (hR : R a) (hS : S a) : Reports (pure a : Walk ν α) R S :=
  fun _ => Check.reports_pure hR hS

theorem Reports.bind {part : Walk ν α} {f : α → Walk ν β} (hpart : part.Reports R S)
    (hf : ∀ a, R a → (f a).Reports R' fun b => S a → S' b) : Reports (part >>= f) R' S' :=
  fun b => (hpart b).bind fun result hR => hf result.1 hR result.2

/-- A part that only looks at names and declarations or changes them. -/
theorem Reports.after {part : Walk ν α} {f : α → Walk ν β}
    (hpart : part.Reports (fun _ => True) fun _ => True) (hf : ∀ a, (f a).Reports R' S') :
    Reports (part >>= f) R' S' :=
  hpart.bind fun a _ => (hf a).weaken (fun _ => id) fun _ _ h _ => h

theorem reports_get : Reports (get : Walk ν Bindings) (fun _ => True) fun _ => True :=
  fun _ => Check.reports_pure trivial trivial

theorem reports_set {b : Bindings} : Reports (set b : Walk ν PUnit) (fun _ => True) fun _ => True :=
  fun _ => Check.reports_pure trivial trivial

theorem reports_modify {f : Bindings → Bindings} :
    Reports (modify f : Walk ν PUnit) (fun _ => True) fun _ => True :=
  fun _ => Check.reports_pure trivial trivial

theorem reports_onScope {f : Scope → Scope} :
    Reports (onScope f : Walk ν Unit) (fun _ => True) fun _ => True := reports_modify

theorem reports_lift {part : Check ν α} (h : part.Reports R S) :
    Reports (liftM part : Walk ν α) R S :=
  fun _ => h.bind fun _ ha => Check.reports_pure ha id

theorem reports_report {found : List Diagnostic} (htyping : Diagnostic.AllTyping found) :
    Reports (report found : Walk ν Unit) (fun _ => True) fun _ => found = [] :=
  reports_lift (Check.reports_report htyping)

theorem reports_orAbort {node : ν} {result : Except Diagnostic α} (hresult : Except.CutsShort result) :
    Reports (liftM (Check.orAbort node result) : Walk ν α) (fun _ => True) fun _ => True :=
  reports_lift ((Check.reports_orAbort hresult).weaken (fun _ _ => trivial) fun _ _ => id)

theorem Reports.within {part : Walk μ α} (h : part.Reports R S) (rebuild : μ → ν) :
    Reports (within rebuild part) R S := fun b => (h b).within rebuild

theorem Reports.map {part : Walk ν α} {f : α → β} (h : part.Reports R S)
    (hR : ∀ a, R a → R' (f a)) (hS : ∀ a, R a → S a → S' (f a)) : Reports (f <$> part) R' S' := by
  rw [map_eq_pure_bind]
  exact h.bind fun a ha => reports_pure (hR a ha) (hS a ha)

/-- A list is reported on as its members are. -/
theorem reports_each {walk : ν → Walk ν ν} {R S : ν → Prop} : (nodes : List ν) →
    (∀ node ∈ nodes, (walk node).Reports R S) →
      (each walk nodes).Reports (fun nodes' => ∀ node ∈ nodes', R node) fun nodes' =>
        ∀ node ∈ nodes', S node
  | [], _ => reports_pure (List.forall_mem_nil _) (List.forall_mem_nil _)
  | node :: rest, h => by
    obtain ⟨hnode, hrest⟩ := List.forall_mem_cons.1 h
    refine (hnode.within _).bind fun node' hR => ?_
    refine ((reports_each rest hrest).within _).bind fun rest' hRs => ?_
    refine reports_pure ?_ fun hSs hS => ?_
    · exact List.forall_mem_cons.2 ⟨hR, hRs⟩
    · exact List.forall_mem_cons.2 ⟨hS, hSs⟩

end Walk

/-! What the rules report. -/

section Rules

open Diagnostic

variable {p : Prop} [Decidable p]

theorem Except.cutsShort_ok {a : α} : CutsShort (.ok a) := nofun

theorem Except.cutsShort_error {d : Diagnostic} (hd : d.CutsShort) :
    CutsShort (.error d : Except Diagnostic α) := by
  rintro fatal ⟨⟩
  exact hd

/-- A type that names no class cuts the analysis short. -/
theorem TypeExpr.cutsShort_resolve (scope : Scope) (builtins : Builtins) (type : TypeExpr) :
    Except.CutsShort (type.resolve scope builtins) := by
  induction type with
  | named span name =>
    unfold resolve
    split
    · exact Except.cutsShort_ok
    · exact Except.cutsShort_error ⟨rfl, nofun⟩
  | array span elem ih =>
    unfold resolve
    cases helem : elem.resolve scope builtins with
    | ok ty => exact Except.cutsShort_ok
    | error reason => exact Except.cutsShort_error (ih reason helem)
  | _ => exact Except.cutsShort_ok

/-- A variable that is declared twice cuts the analysis short. -/
theorem Scope.cutsShort_declareLocal (scope : Scope) (name : String) (symbol : SymbolId) (span : Span) :
    Except.CutsShort (scope.declareLocal name symbol span) := by
  unfold declareLocal
  dsimp only
  split
  · exact Except.cutsShort_ok
  · split
    · exact Except.cutsShort_error ⟨rfl, nofun⟩
    · exact Except.cutsShort_ok

theorem SymbolTable.cutsShort_declareMember (cls : SymbolId) (className name : String)
    (kind : SymbolKind) (span : Span) (table : SymbolTable) (ty : Ty) :
    Except.CutsShort (declareMember cls className name kind span table ty) := by
  unfold declareMember
  split
  · exact Except.cutsShort_ok
  · exact Except.cutsShort_error ⟨rfl, nofun⟩

namespace Env

/-- A name that denotes nothing cuts the analysis short. -/
theorem cutsShort_symbolNamed (env : Env) (name : Ident) : Except.CutsShort (env.symbolNamed name) := by
  unfold symbolNamed
  split
  · exact Except.cutsShort_error ⟨rfl, nofun⟩
  · split
    · exact Except.cutsShort_error ⟨rfl, nofun⟩
    · split
      · split
        · exact Except.cutsShort_error ⟨rfl, nofun⟩
        · exact Except.cutsShort_ok
      · exact Except.cutsShort_ok

theorem cutsShort_memberNamed (env : Env) (cls : SymbolId) (name : Ident) :
    Except.CutsShort (env.memberNamed cls name) := by
  unfold memberNamed
  dsimp only
  split
  · exact Except.cutsShort_ok
  · exact Except.cutsShort_error ⟨rfl, nofun⟩

/-- A member that is not there, or may not be used, cuts the analysis short. -/
theorem cutsShort_memberOf (env : Env) (owner : Reference) (ownerTy : Ty) (name : Ident) :
    Except.CutsShort (env.memberOf owner ownerTy name) := by
  unfold memberOf
  split
  · exact Except.cutsShort_error ⟨rfl, nofun⟩
  · split
    next reason hmember =>
      exact Except.cutsShort_error (env.cutsShort_memberNamed _ name reason hmember)
    next =>
      split
      · exact Except.cutsShort_ok
      · exact Except.cutsShort_error ⟨rfl, nofun⟩
  · split
    · exact env.cutsShort_memberNamed _ name
    · split
      · exact Except.cutsShort_ok
      · exact Except.cutsShort_error ⟨rfl, nofun⟩
    · exact Except.cutsShort_error ⟨rfl, nofun⟩

end Env

/-- Whatever is wrong with a path cuts analysis short. -/
theorem Reference.cutsShort_analyze (env : Env) (ref : Reference) {left : Reference}
    {fatal : Diagnostic} (hfatal : ref.analyze env = .error (left, fatal)) : fatal.CutsShort := by
  induction ref generalizing left fatal with
  | this annot =>
    unfold analyze at hfatal
    split at hfatal
    next =>
      cases hfatal
      exact ⟨rfl, nofun⟩
    next => cases hfatal
  | ident annot name =>
    unfold analyze at hfatal
    split at hfatal
    next reason hname =>
      cases hfatal
      exact env.cutsShort_symbolNamed name fatal hname
    next => cases hfatal
  | member annot owner name ih =>
    unfold analyze at hfatal
    split at hfatal
    next owner' reason howner =>
      cases hfatal
      exact ih howner
    next owner' ownerTy howner =>
      split at hfatal
      next reason hmember =>
        cases hfatal
        exact env.cutsShort_memberOf owner' ownerTy name fatal hmember
      next => cases hfatal

namespace Typing

theorem allTyping_nil : AllTyping [] := List.forall_mem_nil _

theorem allTyping_singleton {d : Diagnostic} (h : d.kind = .typing) : AllTyping [d] :=
  List.forall_mem_singleton.2 h

/-- A check that reports one mistake if it fails. -/
theorem allTyping_unless {d : Diagnostic} (h : d.kind = .typing) :
    AllTyping (if p then [] else [d]) := by
  split
  · exact allTyping_nil
  · exact allTyping_singleton h

theorem allTyping_when {d : Diagnostic} (h : d.kind = .typing) :
    AllTyping (if p then [d] else []) := by
  split
  · exact allTyping_singleton h
  · exact allTyping_nil

variable {table : SymbolTable} {span : Span}

theorem allTyping_unary {op : UnaryOp} {operand : Ty} : AllTyping (unary op operand span).2 := by
  unfold unary
  split
  · exact allTyping_nil
  · exact allTyping_singleton rfl

theorem allTyping_binary {op : BinaryOp} {left right : Ty} :
    AllTyping (binary op left right span).2 := by
  unfold binary
  split
  · exact allTyping_nil
  · exact allTyping_singleton rfl

theorem allTyping_required {role : String} {expected found : Ty} :
    AllTyping (required table role expected found span) := allTyping_unless rfl

theorem allTyping_ternary {onTrue onFalse : Ty} :
    AllTyping (ternary table onTrue onFalse span).2 := by
  unfold ternary
  split
  · split <;> exact allTyping_nil
  · exact allTyping_singleton rfl

theorem allTyping_value {target : Reference} {ty : Ty} : AllTyping (value table target ty).2 := by
  unfold value
  split
  · exact allTyping_singleton rfl
  · exact allTyping_singleton rfl
  · exact allTyping_nil

/-- All that is reported on an array element are mistakes in types. -/
theorem allTyping_element {target : Reference} {ty : Ty} :
    AllTyping (element table target ty span).2 := by
  unfold element
  split
  · exact allTyping_singleton rfl
  · exact allTyping_singleton rfl
  · exact allTyping_singleton rfl
  · split
    · exact allTyping_nil
    · exact allTyping_nil
    · exact allTyping_singleton rfl

/-- All that is reported on arguments are mistakes in types. -/
theorem allTyping_arguments {method : String} {position : Nat} {params : List SymbolId}
    {args : List (Expr × Ty)} : AllTyping (arguments table method position params args) := by
  induction params generalizing position args with
  | nil => exact allTyping_nil
  | cons param params ih =>
    cases args with
    | nil => exact allTyping_nil
    | cons arg args =>
      unfold arguments
      dsimp only
      split
      · exact ih
      · exact List.forall_mem_cons.2 ⟨rfl, ih⟩

/-- All that is reported on a call are mistakes in types. -/
theorem allTyping_call {callee : Reference} {args : List (Expr × Ty)} :
    AllTyping (call table callee args span).2 := by
  unfold call
  split
  · split
    · dsimp only
      split
      · exact allTyping_arguments
      · exact allTyping_singleton rfl
    · exact allTyping_singleton rfl
  · exact allTyping_singleton rfl

theorem allTyping_initial {name : String} {expected found : Ty} :
    AllTyping (initial table name expected found span) := allTyping_unless rfl

theorem allTyping_assignment {target : Reference} {expected found : Ty} :
    AllTyping (assignment table target expected found span) := by
  unfold assignment
  split
  · exact allTyping_singleton rfl
  · exact allTyping_unless rfl

theorem allTyping_stored {elem found : Ty} : AllTyping (stored table elem found span) :=
  allTyping_unless rfl

/-- All that is reported on a result are mistakes in types. -/
theorem allTyping_returned {expected : Ty} {found : Option Ty} :
    AllTyping (returned table expected found span) := by
  unfold returned
  split
  · exact allTyping_unless rfl
  · split
    · exact allTyping_singleton rfl
    · exact allTyping_unless rfl

theorem allTyping_branch {stmt : Stmt} : AllTyping (branch stmt) := allTyping_when rfl

theorem allTyping_methodEnd {method : MethodDef} {returnTy : Ty} :
    AllTyping (methodEnd method returnTy) := allTyping_when rfl

end Typing

end Rules

end SmallJava
