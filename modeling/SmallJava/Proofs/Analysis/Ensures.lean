import SmallJava.Analysis.Check
import SmallJava.Proofs.Outcome

namespace SmallJava

variable {μ ν α β : Type}

/-- Nothing that was reported is lost, an analysis that ends early has reported
    something, and one that reports nothing has a result with the property `Q`. -/
structure Check.Ensures (part : Check ν α) (Q : α → Prop) : Prop where
  ok : ∀ {log log' : Diagnostic.Log} {a : α}, part log = .ok a log' →
    log <+: log' ∧ (log' = log → Q a)
  error : ∀ {log log' : Diagnostic.Log} {node : ν}, part log = .error node log' →
    log <+: log' ∧ log' ≠ log

namespace Check

theorem Ensures.weaken {part : Check ν α} {Q R : α → Prop} (h : part.Ensures Q)
    (himp : ∀ a, Q a → R a) : part.Ensures R where
  ok := fun hrun => ⟨(h.ok hrun).1, fun hclean => himp _ ((h.ok hrun).2 hclean)⟩
  error := h.error

theorem ensures_pure {a : α} {Q : α → Prop} (h : Q a) : Ensures (pure a : Check ν α) Q where
  ok := by
    rintro log _ _ ⟨⟩
    exact ⟨List.prefix_refl log, fun _ => h⟩
  error := nofun

/-- A sequence of two parts reports nothing only if neither part does. -/
theorem Ensures.bind {part : Check ν α} {f : α → Check ν β} {Q : α → Prop} {R : β → Prop}
    (hpart : part.Ensures Q) (hf : ∀ a, (f a).Ensures fun b => Q a → R b) :
    Ensures (part >>= f) R where
  ok := by
    intro log log' b hrun
    obtain ⟨a, mid, hfirst, hrest⟩ := bind_eq_ok_iff.1 hrun
    obtain ⟨hbefore, hQ⟩ := hpart.ok hfirst
    obtain ⟨hafter, hR⟩ := (hf a).ok hrest
    refine ⟨hbefore.trans hafter, ?_⟩
    rintro rfl
    have hsame : mid = log' := hafter.eq_of_length (Nat.le_antisymm hafter.length_le hbefore.length_le)
    exact hR hsame.symm (hQ hsame)
  error := by
    intro log log' node hrun
    obtain hfirst | ⟨a, mid, hfirst, hrest⟩ := bind_eq_error_iff.1 hrun
    · exact hpart.error hfirst
    · obtain ⟨hbefore, -⟩ := hpart.ok hfirst
      obtain ⟨hafter, hne⟩ := (hf a).error hrest
      refine ⟨hbefore.trans hafter, ?_⟩
      rintro rfl
      exact hne (hafter.eq_of_length (Nat.le_antisymm hafter.length_le hbefore.length_le)).symm

theorem ensures_report {found : List Diagnostic} :
    Ensures (report found : Check ν Unit) fun _ => found = [] where
  ok := by
    rintro log _ _ ⟨⟩
    exact ⟨List.prefix_append log found, fun hclean => by simpa using hclean⟩
  error := nofun

theorem ensures_abort {node : ν} {fatal : Diagnostic} {Q : α → Prop} :
    Ensures (abort node fatal) Q where
  ok := nofun
  error := by
    rintro log _ _ ⟨⟩
    exact ⟨List.prefix_append log [fatal], by simp⟩

theorem ensures_orAbort {node : ν} {result : Except Diagnostic α} :
    Ensures (orAbort node result) fun a => result = .ok a := by
  cases result with
  | ok a => exact ensures_pure rfl
  | error fatal => exact ensures_abort

theorem Ensures.within {part : Check μ α} {Q : α → Prop} (h : part.Ensures Q) (rebuild : μ → ν) :
    Ensures (within rebuild part) Q where
  ok := fun hrun => h.ok (within_eq_ok_iff.1 hrun)
  error := by
    intro log log' node hrun
    obtain ⟨found, hpart, rfl⟩ := within_eq_error_iff.1 hrun
    exact h.error hpart

theorem ensures_conclude {verdict : Ty × List Diagnostic} :
    Ensures (conclude verdict : Check ν Ty) fun ty => verdict = (ty, []) := by
  refine ensures_report.bind fun _ => ensures_pure fun hnone => ?_
  rw [← hnone]

end Check

/-- Like `Check.Ensures`. The property relates the names and declarations before,
    the result, and the names and declarations after. -/
def Walk.Ensures (part : Walk ν α) (Q : Bindings → α → Bindings → Prop) : Prop :=
  ∀ before, Check.Ensures (part before) fun result => Q before result.1 result.2

namespace Walk

variable {Q : Bindings → α → Bindings → Prop} {R : Bindings → β → Bindings → Prop}

theorem Ensures.weaken {part : Walk ν α} {Q' : Bindings → α → Bindings → Prop}
    (h : part.Ensures Q) (himp : ∀ before a after, Q before a after → Q' before a after) :
    part.Ensures Q' :=
  fun before => (h before).weaken fun result => himp before result.1 result.2

theorem ensures_pure {a : α} (h : ∀ before, Q before a before) : Ensures (pure a : Walk ν α) Q :=
  fun before => Check.ensures_pure (h before)

theorem Ensures.bind {part : Walk ν α} {f : α → Walk ν β} (hpart : part.Ensures Q)
    (hf : ∀ a, (f a).Ensures fun mid b after => ∀ before, Q before a mid → R before b after) :
    Ensures (part >>= f) R :=
  fun before => (hpart before).bind fun result =>
    (hf result.1 result.2).weaken fun _ h => h before

theorem ensures_get : Ensures (get : Walk ν Bindings) fun before found after =>
    found = before ∧ after = before :=
  fun _ => Check.ensures_pure ⟨rfl, rfl⟩

theorem ensures_set {bindings : Bindings} :
    Ensures (set bindings : Walk ν PUnit) fun _ _ after => after = bindings :=
  fun _ => Check.ensures_pure rfl

theorem ensures_modify {f : Bindings → Bindings} :
    Ensures (modify f : Walk ν PUnit) fun before _ after => after = f before :=
  fun _ => Check.ensures_pure rfl

theorem ensures_onScope {f : Scope → Scope} :
    Ensures (onScope f : Walk ν Unit) fun before _ after =>
      after = { before with scope := f before.scope } := ensures_modify

/-- A part that looks at bindings without changing them. -/
theorem ensures_lift {part : Check ν α} {P : α → Prop} (h : part.Ensures P) :
    Ensures (liftM part : Walk ν α) fun before a after => P a ∧ after = before := by
  intro before
  exact h.bind fun a => Check.ensures_pure fun hP => ⟨hP, rfl⟩

theorem ensures_report {found : List Diagnostic} :
    Ensures (report found : Walk ν Unit) fun before _ after => found = [] ∧ after = before :=
  ensures_lift Check.ensures_report

theorem Ensures.within {part : Walk μ α} (h : part.Ensures Q) (rebuild : μ → ν) :
    Ensures (within rebuild part) Q := fun before => (h before).within rebuild

theorem Ensures.map {part : Walk ν α} {f : α → β} (h : part.Ensures Q)
    (himp : ∀ before a after, Q before a after → R before (f a) after) :
    Ensures (f <$> part) R := by
  rw [map_eq_pure_bind]
  exact h.bind fun a => ensures_pure fun mid before => himp before a mid

/-- What every step over a list ensures, put together. -/
theorem ensures_each {walk : ν → Walk ν ν} {Q : ν → Bindings → ν → Bindings → Prop}
    {R : List ν → Bindings → List ν → Bindings → Prop} (h : ∀ node, (walk node).Ensures (Q node))
    (hnil : ∀ b, R [] b [] b)
    (hcons : ∀ node nodes before node' mid nodes' after, Q node before node' mid →
      R nodes mid nodes' after → R (node :: nodes) before (node' :: nodes') after)
    (nodes : List ν) : (each walk nodes).Ensures (R nodes) := by
  induction nodes with
  | nil => exact ensures_pure hnil
  | cons node nodes ih =>
    refine ((h node).within _).bind fun node' => ?_
    refine (ih.within _).bind fun nodes' => ensures_pure ?_
    intro after mid hrest before hfirst
    exact hcons node nodes before node' mid nodes' after hfirst hrest

end Walk

end SmallJava
