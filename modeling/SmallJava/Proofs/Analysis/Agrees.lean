import Mathlib.Data.List.Forall2
import SmallJava.Analysis.Check

/-! Analyses that report the same and come to the same result. -/

namespace SmallJava

variable {μ ν μ' ν' α β α' β' : Type}

/-- Both end early or neither does, with the same log. If neither does, the results are related. -/
inductive Check.SameOutcome (R : α → β → Prop) :
    EStateM.Result ν Diagnostic.Log α → EStateM.Result μ Diagnostic.Log β → Prop
  | ok {a b log} (h : R a b) : SameOutcome R (.ok a log) (.ok b log)
  | error {node node' log} : SameOutcome R (.error node log) (.error node' log)

/-- Whatever was reported before, two analyses report the same. -/
def Check.Agrees (part : Check ν α) (other : Check μ β) (R : α → β → Prop) : Prop :=
  ∀ log, Check.SameOutcome R (part log) (other log)

namespace Check

variable {part : Check ν α} {other : Check μ β} {R : α → β → Prop} {R' : α' → β' → Prop}

theorem SameOutcome.weaken {S : α → β → Prop} {result : EStateM.Result ν Diagnostic.Log α}
    {result' : EStateM.Result μ Diagnostic.Log β} (h : SameOutcome R result result')
    (himp : ∀ a b, R a b → S a b) : SameOutcome S result result' := by
  cases h with
  | ok hR => exact .ok (himp _ _ hR)
  | error => exact .error

/-- Two outcomes are the same if both are the same as a third one. -/
theorem SameOutcome.of_common {left middle right : EStateM.Result ν Diagnostic.Log α}
    (hleft : SameOutcome (· = ·) left middle) (hright : SameOutcome (· = ·) right middle) :
    SameOutcome (· = ·) left right := by
  cases hleft with
  | ok hsame =>
    cases hright with
    | ok hsame' => exact .ok (hsame.trans hsame'.symm)
  | error =>
    cases hright with
    | error => exact .error

theorem Agrees.weaken {S : α → β → Prop} (h : part.Agrees other R) (himp : ∀ a b, R a b → S a b) :
    part.Agrees other S := fun log => (h log).weaken himp

theorem Agrees.of_common {left middle right : Check ν α} (hleft : left.Agrees middle (· = ·))
    (hright : right.Agrees middle (· = ·)) : left.Agrees right (· = ·) :=
  fun log => (hleft log).of_common (hright log)

theorem agrees_pure {a : α} {b : β} (h : R a b) :
    Agrees (pure a : Check ν α) (pure b : Check μ β) R := fun _ => .ok h

theorem Agrees.refl (part : Check ν α) : part.Agrees part (· = ·) := by
  intro log
  cases part log with
  | ok a mid => exact .ok rfl
  | error node mid => exact .error

/-- Two sequences agree if their first parts do, and what follows agrees on related results. -/
theorem Agrees.bind {f : α → Check ν α'} {g : β → Check μ β'} (h : part.Agrees other R)
    (hfg : ∀ a b, R a b → (f a).Agrees (g b) R') : Agrees (part >>= f) (other >>= g) R' := by
  intro log
  change SameOutcome R' (EStateM.bind part f log) (EStateM.bind other g log)
  unfold EStateM.bind
  have hout := h log
  generalize part log = l at hout
  generalize other log = r at hout
  cases hout with
  | ok hR => exact hfg _ _ hR _
  | error => exact .error

/-- Two parts with the same result, and what follows it. -/
theorem Agrees.bind_same {other : Check μ α} {f : α → Check ν α'} {g : α → Check μ β'}
    (h : part.Agrees other (· = ·)) (hfg : ∀ a, (f a).Agrees (g a) R') :
    Agrees (part >>= f) (other >>= g) R' := by
  refine h.bind ?_
  rintro a _ rfl
  exact hfg a

theorem agrees_report (found : List Diagnostic) :
    Agrees (report found : Check ν Unit) (report found : Check μ Unit) (· = ·) := fun _ => .ok rfl

theorem agrees_abort {node : ν} {node' : μ} (fatal : Diagnostic) :
    Agrees (abort node fatal) (abort node' fatal) R := fun _ => .error

theorem agrees_orAbort {node : ν} {node' : μ} (result : Except Diagnostic α) :
    Agrees (orAbort node result) (orAbort node' result) (· = ·) := by
  cases result with
  | ok a => exact agrees_pure rfl
  | error fatal => exact agrees_abort fatal

theorem agrees_conclude (verdict : Ty × List Diagnostic) :
    Agrees (conclude verdict : Check ν Ty) (conclude verdict : Check μ Ty) (· = ·) :=
  fun _ => .ok rfl

/-- Agreement of the parts is agreement of the nodes around them, which need not be alike. -/
theorem Agrees.within (h : part.Agrees other R) (rebuild : ν → ν') (rebuild' : μ → μ') :
    Agrees (within rebuild part) (within rebuild' other) R := by
  intro log
  unfold Check.within
  have hout := h log
  generalize part log = l at hout
  generalize other log = r at hout
  cases hout with
  | ok hR => exact .ok hR
  | error => exact .error

end Check

/-- Whatever the names and declarations are, two analyses report the same and leave the same names
and declarations. -/
def Walk.Agrees (part : Walk ν α) (other : Walk μ β) (R : α → β → Prop) : Prop :=
  ∀ b, Check.Agrees (part b) (other b) fun result result' =>
    R result.1 result'.1 ∧ result.2 = result'.2

namespace Walk

variable {part : Walk ν α} {other : Walk μ β} {R : α → β → Prop} {R' : α' → β' → Prop}

theorem agrees_pure {a : α} {b : β} (h : R a b) :
    Agrees (pure a : Walk ν α) (pure b : Walk μ β) R := fun _ => Check.agrees_pure ⟨h, rfl⟩

theorem Agrees.refl (part : Walk ν α) : part.Agrees part (· = ·) :=
  fun b => (Check.Agrees.refl (part b)).weaken fun _ _ h => ⟨congrArg Prod.fst h, congrArg Prod.snd h⟩

theorem Agrees.bind {f : α → Walk ν α'} {g : β → Walk μ β'} (h : part.Agrees other R)
    (hfg : ∀ a b, R a b → (f a).Agrees (g b) R') : Agrees (part >>= f) (other >>= g) R' := by
  refine fun b => (h b).bind ?_
  rintro ⟨a, after⟩ ⟨a', _⟩ ⟨hR, rfl⟩
  exact hfg a a' hR after

theorem Agrees.bind_same {other : Walk μ α} {f : α → Walk ν α'} {g : α → Walk μ β'}
    (h : part.Agrees other (· = ·)) (hfg : ∀ a, (f a).Agrees (g a) R') :
    Agrees (part >>= f) (other >>= g) R' := by
  refine h.bind ?_
  rintro a _ rfl
  exact hfg a

/-- Walks that agree with the same third one agree with each other. -/
theorem Agrees.of_common {left middle right : Walk ν α} (hleft : left.Agrees middle (· = ·))
    (hright : right.Agrees middle (· = ·)) : left.Agrees right (· = ·) := by
  intro b
  have hsame : ∀ result result' : α × Bindings,
      result.1 = result'.1 ∧ result.2 = result'.2 → result = result' :=
    fun _ _ h => Prod.ext h.1 h.2
  refine (((hleft b).weaken hsame).of_common ((hright b).weaken hsame)).weaken ?_
  rintro result _ rfl
  exact ⟨rfl, rfl⟩

theorem agrees_get : Agrees (get : Walk ν Bindings) (get : Walk μ Bindings) (· = ·) :=
  fun _ => Check.agrees_pure ⟨rfl, rfl⟩

theorem agrees_set (b : Bindings) :
    Agrees (set b : Walk ν PUnit) (set b : Walk μ PUnit) (· = ·) :=
  fun _ => Check.agrees_pure ⟨rfl, rfl⟩

theorem agrees_modify (f : Bindings → Bindings) :
    Agrees (modify f : Walk ν PUnit) (modify f : Walk μ PUnit) (· = ·) :=
  fun _ => Check.agrees_pure ⟨rfl, rfl⟩

theorem agrees_onScope (f : Scope → Scope) :
    Agrees (onScope f : Walk ν Unit) (onScope f : Walk μ Unit) (· = ·) := agrees_modify _

theorem agrees_lift {part : Check ν α} {other : Check μ β} (h : part.Agrees other R) :
    Agrees (liftM part : Walk ν α) (liftM other : Walk μ β) R :=
  fun _ => h.bind fun _ _ hR => Check.agrees_pure ⟨hR, rfl⟩

theorem agrees_report (found : List Diagnostic) :
    Agrees (report found : Walk ν Unit) (report found : Walk μ Unit) (· = ·) :=
  agrees_lift (Check.agrees_report found)

theorem agrees_orAbort {node : ν} {node' : μ} (result : Except Diagnostic α) :
    Agrees (liftM (Check.orAbort node result) : Walk ν α)
      (liftM (Check.orAbort node' result) : Walk μ α) (· = ·) :=
  agrees_lift (Check.agrees_orAbort result)

theorem Agrees.within (h : part.Agrees other R) (rebuild : ν → ν') (rebuild' : μ → μ') :
    Agrees (within rebuild part) (within rebuild' other) R := fun b => (h b).within rebuild rebuild'

theorem Agrees.map {f : α → α'} {g : β → β'} (h : part.Agrees other R)
    (hfg : ∀ a b, R a b → R' (f a) (g b)) : Agrees (f <$> part) (g <$> other) R' := by
  rw [map_eq_pure_bind, map_eq_pure_bind]
  exact h.bind fun a b hR => agrees_pure (hfg a b hR)

/-- Two lists whose members agree one by one. -/
theorem agrees_each {walk : ν → Walk ν ν} {walk' : μ → Walk μ μ} {P : ν → μ → Prop}
    {R : ν → μ → Prop} (hwalk : ∀ node node', P node node' → (walk node).Agrees (walk' node') R) :
    {nodes : List ν} → {nodes' : List μ} → List.Forall₂ P nodes nodes' →
      (each walk nodes).Agrees (each walk' nodes') (List.Forall₂ R)
  | [], _, .nil => agrees_pure .nil
  | _ :: _, _, .cons hnode hnodes => by
    refine ((hwalk _ _ hnode).within _ _).bind fun _ _ hfirst => ?_
    refine ((agrees_each hwalk hnodes).within _ _).bind fun _ _ hrest => ?_
    exact agrees_pure (.cons hfirst hrest)

theorem agrees_each_same {walk walk' : ν → Walk ν ν} {P : ν → ν → Prop} {nodes nodes' : List ν}
    (hwalk : ∀ node node', P node node' → (walk node).Agrees (walk' node') (· = ·))
    (h : List.Forall₂ P nodes nodes') : (each walk nodes).Agrees (each walk' nodes') (· = ·) := by
  have heach := agrees_each hwalk h
  rwa [List.forall₂_eq_eq_eq] at heach

end Walk

end SmallJava
