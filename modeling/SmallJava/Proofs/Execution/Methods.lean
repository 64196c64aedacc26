import SmallJava.Proofs.Declaration.Accepted
import SmallJava.Proofs.Execution.Statements

namespace SmallJava

open Machine Exec

/-- The result of a method that is called with these arguments. -/
def MethodDef.exec (sc : Scene) (params : List SymbolId) (args : List Datum) (method : MethodDef) :
    Exec (Option Datum) := do
  match ← Stmt.execAll sc method.body (.ofArgs params args) with
  | .next _ => pure none
  | .return result => pure result

/-- What the call of a method does, if not more than so many calls are nested. -/
def Package.invoke (package : Package) (analysis : Analysis) (rounds : Nat) :
    Nat → SymbolId → Datum → List Datum → Exec (Option Datum)
  | 0, _, _, _ => throw .timeout
  | depth + 1, m, this, args =>
    if m = analysis.builtins.println then do
      args.forM print
      pure none
    else
      match package.methods.find? (·.binding = some m) with
      | some method =>
        let sig := analysis.table.signature
        method.exec ⟨sig, this, rounds, invoke package analysis rounds depth⟩ (sig.paramsOf m) args
      | none => stuck

/-- Where the methods of the program are executed. -/
def Package.scene (package : Package) (analysis : Analysis) (rounds depth : Nat) (this : Datum) :
    Scene where
  sig := analysis.table.signature
  this
  rounds
  invoke := package.invoke analysis rounds depth

theorem Valuation.typed_ofArgs {sig : Signature} {W : HeapTyping} {params : List SymbolId}
    {args : List Datum} (h : List.Forall₂ (fun d p => d.HasTy sig W (sig.typeOf p)) args params) :
    Valuation.Typed sig W params (.ofArgs params args) := by
  induction h with
  | nil => simp [Valuation.Typed]
  | cons hd _ ih => exact ih.update hd fun y hmem hne => (List.mem_cons.1 hmem).resolve_left hne

namespace Stmt

variable {sc : Scene}

mutual

/-- A statement that always returns is left with a result, if it is left at all. -/
theorem exec_returns : (stmt : Stmt) → {env : Valuation} → {S S' : Store} → {leave : Leave} →
    stmt.alwaysReturns = true → stmt.exec sc env S = .ok leave S' → ∃ result, leave = .return result
  | .return _ none, _, _, _, _ => by
    intro _ hrun
    obtain ⟨rfl, -⟩ := pure_eq_ok_iff.1 (hrun : (pure _ : Exec Leave) _ = _)
    exact ⟨_, rfl⟩
  | .return _ (some value), _, _, _, _ => by
    intro _ hrun
    rw [exec] at hrun
    obtain ⟨d, _, -, hrun⟩ := bind_eq_ok_iff.1 hrun
    obtain ⟨rfl, -⟩ := pure_eq_ok_iff.1 hrun
    exact ⟨_, rfl⟩
  | block _ stmts, _, _, _, _ => by
    intro hreturns hrun
    rw [exec] at hrun
    exact execAll_returns stmts (by simpa [alwaysReturns] using hreturns) hrun
  | ifElse _ cond onTrue (some onFalse), _, _, _, _ => by
    intro hreturns hrun
    rw [alwaysReturns, Bool.and_eq_true] at hreturns
    rw [exec] at hrun
    obtain ⟨d, _, -, hrun⟩ := bind_eq_ok_iff.1 hrun
    split at hrun
    next => exact exec_returns onTrue hreturns.1 hrun
    next => exact exec_returns onFalse hreturns.2 hrun
  | ifElse _ _ _ none, _, _, _, _ => fun hreturns => by cases hreturns
  | varDecl .., _, _, _, _ => fun hreturns => by cases hreturns
  | assign .., _, _, _, _ => fun hreturns => by cases hreturns
  | indexAssign .., _, _, _, _ => fun hreturns => by cases hreturns
  | call .., _, _, _, _ => fun hreturns => by cases hreturns
  | .while .., _, _, _, _ => fun hreturns => by cases hreturns
  | .for .., _, _, _, _ => fun hreturns => by cases hreturns

/-- A list of statements that returns on every path never ends without a result. -/
theorem execAll_returns : (stmts : List Stmt) → {env : Valuation} → {S S' : Store} → {leave : Leave} →
    allReturn stmts = true → execAll sc stmts env S = .ok leave S' → ∃ result, leave = .return result
  | [], _, _, _, _ => fun hreturns => by cases hreturns
  | stmt :: rest, _, _, _, _ => by
    intro hreturns hrun
    rw [execAll] at hrun
    obtain ⟨leave, _, hfirst, hrun⟩ := bind_eq_ok_iff.1 hrun
    cases leave with
    | «return» result =>
      obtain ⟨rfl, -⟩ := pure_eq_ok_iff.1 hrun
      exact ⟨_, rfl⟩
    | next env =>
      cases rest with
      | nil =>
        obtain ⟨result, hresult⟩ := exec_returns stmt (by simpa [allReturn] using hreturns) hfirst
        cases hresult
      | cons second rest =>
        exact execAll_returns (second :: rest) (by simpa [allReturn] using hreturns) hrun

end

end Stmt

/-- What holds of an evaluation that is sound holds of what it yields. -/
theorem Exec.Sound.produced {α : Type} {sig : Signature} {W : HeapTyping} {x : Exec α}
    {P : HeapTyping → α → Prop} (h : Sound sig W x P) :
    Sound sig W x fun W' a => P W' a ∧ ∃ S S', x S = .ok a S' := by
  intro S hS
  obtain ⟨hstuck, hok⟩ := h S hS
  refine ⟨hstuck, fun a S' hrun => ?_⟩
  obtain ⟨W', hle, hS', ha⟩ := hok a S' hrun
  exact ⟨W', hle, hS', ha, S, S', hrun⟩

theorem Exec.sound_prints {sig : Signature} {W : HeapTyping} (ds : List Datum) :
    Sound sig W (ds.forM print) fun _ _ => True := by
  induction ds generalizing W with
  | nil => exact sound_pure trivial
  | cons d ds ih => exact sound_print.bind fun W' _ _ _ => ih

namespace MethodDef

variable {sig : Signature} {method : MethodDef} {m : SymbolId} {info : MethodInfo} {sc : Scene}
  {W : HeapTyping} {args : List Datum}

/-- Where the body of a method stands. -/
def bodyContext (sig : Signature) (m : SymbolId) (info : MethodInfo) : Context :=
  ⟨sig, info.owner, info.modifiers.isStatic, sig.typeOf m, info.params⟩

/-- A well-typed method whose execution comes to the end of its body is of type `void`. -/
theorem WellTyped.typeOf_of_next (htyped : method.WellTyped sig m info) {env env' : Valuation}
    {S S' : Store} (hrun : Stmt.execAll sc method.body env S = .ok (.next env') S') :
    sig.typeOf m = .void := by
  cases hvoid : method.returnType.isVoid with
  | true => exact Ty.isVoid_iff.1 (htyped.isVoid.trans hvoid)
  | false =>
    obtain ⟨result, hresult⟩ := Stmt.execAll_returns method.body (htyped.returns hvoid) hrun
    cases hresult

/-- A method has a result of its type, if it is to have one. -/
theorem WellTyped.sound_exec (htyped : method.WellTyped sig m info)
    (hplain : Stmt.allPlainUpdates method.body = true) (hscene : sc.Typed (bodyContext sig m info) W)
    (hargs : List.Forall₂ (fun d p => d.HasTy sig W (sig.typeOf p)) args info.params) :
    Sound sig W (method.exec sc info.params args) fun W' => HasResult sig W' (sig.typeOf m) := by
  have henv : Valuation.Typed sig W (info.params ++ []) (.ofArgs info.params args) := by
    rw [List.append_nil]
    exact Valuation.typed_ofArgs hargs
  have hbody : Stmt.ListWellTyped (bodyContext sig m info) [] method.body := htyped.body
  refine (hbody.sound hscene henv hplain).produced.bind fun W' leave _ hleave => ?_
  obtain ⟨hleave, S, S', hrun⟩ := hleave
  cases leave with
  | next env => exact sound_pure (htyped.typeOf_of_next hrun)
  | «return» result => exact sound_pure hleave

end MethodDef

namespace Package

variable {package : Package} {analysis : Analysis} {rounds depth : Nat} {m : SymbolId}
  {info : MethodInfo}

/-- The method that a symbol stands for is found by it. -/
theorem WellTyped.find?_method (h : package.WellTyped true true analysis)
    (hkind : analysis.table.kind? m = some (.method info)) (hown : m ≠ analysis.builtins.println) :
    ∃ method ∈ package.methods, package.methods.find? (·.binding = some m) = some method ∧
      method.WellTyped analysis.table.signature m info := by
  obtain ⟨method, hmem, hbound⟩ := List.mem_filterMap.1 ((h.complete m info hkind).resolve_left hown)
  obtain ⟨found, hfind⟩ : ∃ found, package.methods.find? (·.binding = some m) = some found := by
    refine Option.isSome_iff_exists.1 (List.find?_isSome.2 ⟨method, hmem, by simpa using hbound⟩)
  have hfound : found.binding = some m := by simpa using List.find?_some hfind
  obtain ⟨m', info', htyped⟩ := h.methods found (List.mem_of_find?_eq_some hfind)
  obtain rfl := Option.some.inj (htyped.bound.symm.trans hfound)
  obtain rfl : info' = info := by simpa using htyped.kind.symm.trans hkind
  exact ⟨found, List.mem_of_find?_eq_some hfind, hfind, htyped⟩

/-- The scene in which a method of a well-typed program is invoked makes sense for its body. -/
theorem WellTyped.scene_typed (h : package.WellTyped true true analysis) {W : HeapTyping}
    {this : Datum}
    (hinvoke : (package.scene analysis rounds depth this).Invokes analysis.table.signature)
    (hthis : info.modifiers.isStatic = false → this ≠ .null ∧
      this.HasTy analysis.table.signature W (.object info.owner)) :
    (package.scene analysis rounds depth this).Typed
      (MethodDef.bodyContext analysis.table.signature m info) W where
  sig := rfl
  this := hthis
  invoke := hinvoke
  fields := fun _ _ _ hkind hstatic => h.table.mem_instanceFields hkind hstatic
  voidFree := h.voidFree

/-- Calls yield what the declarations say, however deep they are nested. -/
theorem WellTyped.invokes (h : package.WellTyped true true analysis) (rounds depth : Nat)
    (this : Datum) :
    (package.scene analysis rounds depth this).Invokes analysis.table.signature := by
  induction depth generalizing this with
  | zero => exact fun W m info this args _ _ _ => sound_timeout
  | succ depth ih =>
    intro W m info this args hkind hthis hargs
    change Sound _ W (package.invoke analysis rounds (depth + 1) m this args) _
    unfold invoke
    by_cases hprintln : m = analysis.builtins.println
    · rw [if_pos hprintln]
      subst hprintln
      exact (sound_prints args).bind fun _ _ _ _ => sound_pure h.println.typeOf
    · rw [if_neg hprintln]
      obtain ⟨method, hmem, hfind, htyped⟩ := h.find?_method hkind hprintln
      rw [SymbolTable.paramsOf_eq hkind] at hargs
      rw [hfind]
      dsimp only
      rw [SymbolTable.paramsOf_eq hkind]
      exact htyped.sound_exec (h.plainUpdates rfl method hmem) (h.scene_typed (ih this) hthis) hargs

end Package

end SmallJava
