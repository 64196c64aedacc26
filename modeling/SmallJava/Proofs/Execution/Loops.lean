import SmallJava.Proofs.Execution.Knowledge

namespace SmallJava

open Machine Exec

/-- Where the machine is when control leaves a statement: at its end, or back in the caller. -/
def Leave.Lands (act : Activation) (locals : List SymbolId) (b : Nat) (Q : Valuation → Prop) :
    Leave → Store → Nat → Machine → Prop
  | next env, S, _, m => m = act.machine locals env S [] b ∧ Q env
  | .return result, S, _, m => m = act.resumed S result.toList

namespace Follows

variable {im : Image} {act : Activation} {sc : Scene} {Γ : Context} {deadline start t : Nat}
  {locals locals' : List SymbolId} {b b' : Nat} {m : Machine} {Q Q' : Valuation → Prop}

/-- The machine goes on from the end of a statement. -/
theorem proceed {result : EStateM.Result Stop Store Leave}
    (h : Follows im.fetch deadline t m result (Leave.Lands act locals b Q))
    (hnext : ∀ env S t₁, Q env → Q' env ∧ ∃ t₂,
      Reaches im.fetch t₁ (act.machine locals env S [] b) t₂ (act.machine locals' env S [] b')) :
    Follows im.fetch deadline t m result (Leave.Lands act locals' b' Q') := by
  refine h.next fun leave S t₁ m₁ _ hlands => ?_
  cases leave with
  | next env =>
    obtain ⟨rfl, hQ⟩ := hlands
    obtain ⟨hQ', t₂, hreach⟩ := hnext env S t₁ hQ
    exact ⟨t₂, _, hreach, rfl, hQ'⟩
  | «return» result => exact ⟨t₁, m₁, .refl, hlands⟩

theorem weaken {result : EStateM.Result Stop Store Leave}
    (h : Follows im.fetch deadline t m result (Leave.Lands act locals b Q))
    (himp : ∀ env, Q env → Q' env) :
    Follows im.fetch deadline t m result (Leave.Lands act locals b Q') :=
  h.proceed fun env _ t₁ hQ => ⟨himp env hQ, t₁, .refl⟩

variable {vars vars' : List SymbolId} {W : HeapTyping} {env : Valuation} {S : Store}

/-- Code follows a statement and what comes after it, if from wherever control lands after the
    statement the rest is followed, and if a return lands in the caller at once. -/
theorem followedBy {first : Exec Leave} {rest : Valuation → Exec Leave}
    (h : Follows im.fetch deadline t m (first S) (Leave.Lands act locals b Q))
    (hready : sc.Ready Γ vars start W env S t)
    (hsound : Sound Γ.sig W first fun W' => Leave.Typed Γ.sig W' vars' Γ.returnTy)
    (hrest : ∀ env' S' t₁ W', t ≤ t₁ → sc.Ready Γ vars' start W' env' S' t₁ → Q env' →
      Follows im.fetch deadline t₁ (act.machine locals env' S' [] b) (rest env' S')
        (Leave.Lands act locals' b' Q')) :
    Follows im.fetch deadline t m (first.followedBy rest S) (Leave.Lands act locals' b' Q') := by
  refine h.bindReady hready hsound fun leave S' t₁ m₁ W' hle hextends hready' htyped hlands => ?_
  cases leave with
  | next env' =>
    obtain ⟨rfl, hQ⟩ := hlands
    exact hrest env' S' t₁ W' hle ⟨hready'.scene, htyped, hready'.store, hready'.started⟩ hQ
  | «return» result => exact .pure hlands

/-- What a loop does from the start of a round on, if each round comes back to the test, and the
    test to the start or to the end of the loop. A round takes time, so that the deadline has
    passed when the loop has used up its rounds. -/
theorem rounds {cond : Valuation → Exec Bool} {round : Valuation → Exec Leave} {a c : Nat}
    (hround : ∀ env S t₁ W, t ≤ t₁ → sc.Ready Γ vars start W env S t₁ → Q env →
      Follows im.fetch deadline t₁ (act.machine locals env S [] a) (round env S)
        (Leave.Lands act locals b Q))
    (hroundSound : ∀ (W : HeapTyping) env, sc.Typed Γ W → env.Typed Γ.sig W vars →
      Sound Γ.sig W (round env) fun W' => Leave.Typed Γ.sig W' vars Γ.returnTy)
    (hcond : ∀ env S t₁ W, t ≤ t₁ → sc.Ready Γ vars start W env S t₁ → Q env →
      Follows im.fetch deadline t₁ (act.machine locals env S [] b) (cond env S)
        fun goesOn S' t₂ m₂ => (goesOn = true → t₁ < t₂) ∧
          m₂ = act.machine locals env S' [] (if goesOn then a else c))
    (hcondSound : ∀ (W : HeapTyping) env, sc.Typed Γ W → env.Typed Γ.sig W vars →
      Sound Γ.sig W (cond env) fun _ _ => True)
    (count : Nat) {t₁ : Nat} (hle : t ≤ t₁) (hready : sc.Ready Γ vars start W env S t₁) (hQ : Q env)
    (henough : deadline ≤ t₁ + count) :
    Follows im.fetch deadline t₁ (act.machine locals env S [] a)
      ((round env).followedBy (loop cond round count) S) (Leave.Lands act locals c Q) := by
  induction count generalizing t₁ W env S with
  | zero =>
    refine (hround env S t₁ W hle hready hQ).followedBy hready
      (hroundSound W env hready.scene hready.env) fun env₁ S₁ t₂ W₁ hle₁ _ _ => ?_
    exact ⟨t₂, _, .refl, by omega, rfl⟩
  | succ count ih =>
    refine (hround env S t₁ W hle hready hQ).followedBy hready
      (hroundSound W env hready.scene hready.env) fun env₁ S₁ t₂ W₁ hle₁ hready₁ hQ₁ => ?_
    rw [loop]
    refine (hcond env₁ S₁ t₂ W₁ (by omega) hready₁ hQ₁).bindReady hready₁
      (hcondSound W₁ env₁ hready₁.scene hready₁.env)
      fun goesOn S₂ t₃ m₃ W₂ hle₂ _ hready₂ _ hplace => ?_
    obtain ⟨hlater, rfl⟩ := hplace
    cases goesOn with
    | false => exact .pure ⟨rfl, hQ₁⟩
    | true =>
      have hlater := hlater rfl
      exact ih (by omega) hready₂ hQ₁ (by omega)

end Follows

section Tests

variable {im : Image} {act : Activation} {sc : Scene} {Γ : Context} {deadline start t : Nat}
  {locals : List SymbolId} {next : Int} {W : HeapTyping} {env : Valuation} {S : Store}
  {fold : Folding} {cond : Option Expr} {when : Bool} {outcome : Option Bool} {a b target : Nat}

/-- Whether a loop whose test has a known outcome goes on. -/
theorem TestCode.goesOn_of_known (hready : sc.Ready Γ (Γ.params ++ locals) start W env S t)
    (hfold : fold.Faithful sc Γ (Γ.params ++ locals) env)
    (htyped : ∀ expr ∈ cond, expr.HasType Γ (Γ.params ++ locals) .boolean) {o : Bool}
    (h : TestCode im fold cond when (Option.some o) a b target) : Stmt.goesOn sc cond env = pure o := by
  cases h with
  | none => rfl
  | some hcond =>
    rw [Stmt.goesOn, hcond.eval_of_known hready hfold rfl (htyped _ rfl), pure_bind,
      Datum.holds_ofBool]

/-- The code of the test of a loop jumps on one outcome and runs to its end on the other. -/
theorem TestCode.follows (hhost : act.Hosts im sc Γ deadline start)
    (hframe : im.Frame Γ.params locals next) (hfold : fold.Faithful sc Γ (Γ.params ++ locals) env)
    (hready : sc.Ready Γ (Γ.params ++ locals) start W env S t) (hfits : b < 0x80000000)
    (htarget : target < 0x80000000)
    (htyped : ∀ expr ∈ cond, expr.HasType Γ (Γ.params ++ locals) .boolean)
    (h : TestCode im fold cond when Option.none a b target) :
    Follows im.fetch deadline t (act.machine locals env S [] a) (Stmt.goesOn sc cond env S)
      fun goesOn S' t' m' => (goesOn = when → t < t') ∧
        m' = act.machine locals env S' [] (if goesOn = when then target else b) := by
  cases h with
  | some hcond =>
    refine (hcond.follows hhost hframe hfold hready hfits htarget rfl (htyped _ rfl)).bind ?_
    rintro _ S' t₁ _ - ⟨o, rfl, hlater, rfl⟩
    rw [Datum.holds_ofBool]
    exact .pure ⟨hlater, rfl⟩

/-- The code after a round of a loop leads back to its start for another one. -/
theorem BackCode.follows (hhost : act.Hosts im sc Γ deadline start)
    (hframe : im.Frame Γ.params locals next) (hfold : fold.Faithful sc Γ (Γ.params ++ locals) env)
    (hready : sc.Ready Γ (Γ.params ++ locals) start W env S t) (hfits : b < 0x80000000)
    (htarget : target < 0x80000000)
    (htyped : ∀ expr ∈ cond, expr.HasType Γ (Γ.params ++ locals) .boolean)
    (h : BackCode im fold cond a b target) :
    Follows im.fetch deadline t (act.machine locals env S [] a) (Stmt.goesOn sc cond env S)
      fun goesOn S' t' m' => (goesOn = true → t < t') ∧
        m' = act.machine locals env S' [] (if goesOn then target else b) := by
  cases h with
  | always htest hjump =>
    rw [htest.goesOn_of_known hready hfold htyped]
    exact .after (hjump.reach_jump htarget) (.pure ⟨fun _ => Nat.lt_succ_self t, rfl⟩)
  | never htest =>
    rw [htest.goesOn_of_known hready hfold htyped]
    exact .pure ⟨nofun, rfl⟩
  | test htest => exact htest.follows hhost hframe hfold hready hfits htarget htyped

end Tests

end SmallJava
