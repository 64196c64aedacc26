import SmallJava.Proofs.Execution.HeapTyping

namespace SmallJava

namespace Machine

/-- The machine comes from one state to another. The numbers are the times at which it is in
    these states, counted in steps. -/
inductive Reaches (fetch : Address → Option Instruction) :
    Nat → Machine → Nat → Machine → Prop
  | refl {t m} : Reaches fetch t m t m
  | step {t m m₁ t₂ m₂} (hstep : step fetch m = .ok true m₁)
      (hrest : Reaches fetch (t + 1) m₁ t₂ m₂) : Reaches fetch t m t₂ m₂

namespace Reaches

variable {fetch : Address → Option Instruction} {m m₁ m₂ : Machine} {t t₁ t₂ : Nat}

theorem one (hstep : Machine.step fetch m = .ok true m₁) : Reaches fetch t m (t + 1) m₁ :=
  .step hstep .refl

theorem trans (h : Reaches fetch t m t₁ m₁) (h' : Reaches fetch t₁ m₁ t₂ m₂) :
    Reaches fetch t m t₂ m₂ := by
  induction h with
  | refl => exact h'
  | step hstep _ ih => exact .step hstep (ih h')

theorem le (h : Reaches fetch t m t₁ m₁) : t ≤ t₁ := by
  induction h with
  | refl => exact Nat.le_refl _
  | step _ _ ih => omega

end Reaches

end Machine

open Machine Exec

variable {α β : Type} {fetch : Address → Option Instruction} {deadline t t₁ : Nat}
  {m m₁ : Machine} {S : Store}

/-- From a moment on, the machine does what an evaluation with this result did. It comes to a
    state as described, or stops with the same fault, or, if the evaluation ran out of rounds, it
    is still running at the deadline. By then it has printed the same. Of an evaluation that made
    no sense nothing is said. -/
def Follows (fetch : Address → Option Instruction) (deadline t : Nat) (m : Machine)
    (result : EStateM.Result Stop Store α) (Post : α → Store → Nat → Machine → Prop) : Prop :=
  match result with
  | .ok a S => ∃ t' m', Reaches fetch t m t' m' ∧ Post a S t' m'
  | .error (.fault fault) S => ∃ t' m' m'', Reaches fetch t m t' m' ∧
      step fetch m' = .error fault m'' ∧ m''.output = S.output
  | .error .timeout S => ∃ t' m', Reaches fetch t m t' m' ∧ deadline ≤ t' ∧ m'.output = S.output
  | .error .stuck _ => True

namespace Follows

variable {x : Exec α} {result : EStateM.Result Stop Store α}
  {P Q : α → Store → Nat → Machine → Prop}

theorem pure {a : α} (hpost : P a S t m) : Follows fetch deadline t m ((Pure.pure a : Exec α) S) P :=
  ⟨t, m, .refl, hpost⟩

theorem stuck : Follows fetch deadline t m ((Exec.stuck : Exec α) S) P := trivial

/-- What the machine does before does not count. -/
theorem after (hreach : Reaches fetch t m t₁ m₁) (h : Follows fetch deadline t₁ m₁ result P) :
    Follows fetch deadline t m result P := by
  match result with
  | .ok a S =>
    obtain ⟨t', m', hrest, hpost⟩ := h
    exact ⟨t', m', hreach.trans hrest, hpost⟩
  | .error (.fault fault) S =>
    obtain ⟨t', m', m'', hrest, hfault⟩ := h
    exact ⟨t', m', m'', hreach.trans hrest, hfault⟩
  | .error .timeout S =>
    obtain ⟨t', m', hrest, hlate⟩ := h
    exact ⟨t', m', hreach.trans hrest, hlate⟩
  | .error .stuck S => trivial

/-- The machine goes on after the evaluation is done. -/
theorem next (h : Follows fetch deadline t m result P)
    (hnext : ∀ a S t₁ m₁, t ≤ t₁ → P a S t₁ m₁ →
      ∃ t₂ m₂, Reaches fetch t₁ m₁ t₂ m₂ ∧ Q a S t₂ m₂) :
    Follows fetch deadline t m result Q := by
  match result with
  | .ok a S =>
    obtain ⟨t₁, m₁, hreach, hpost⟩ := h
    obtain ⟨t₂, m₂, hrest, hpost'⟩ := hnext a S t₁ m₁ hreach.le hpost
    exact ⟨t₂, m₂, hreach.trans hrest, hpost'⟩
  | .error (.fault fault) S => exact h
  | .error .timeout S => exact h
  | .error .stuck S => trivial

theorem mono (h : Follows fetch deadline t m result P)
    (himp : ∀ a S t₁ m₁, t ≤ t₁ → P a S t₁ m₁ → Q a S t₁ m₁) :
    Follows fetch deadline t m result Q :=
  h.next fun a S t₁ m₁ hle hpost => ⟨t₁, m₁, .refl, himp a S t₁ m₁ hle hpost⟩

/-- A machine follows two evaluations in a row if it follows the second from wherever it gets to
    with the first. -/
theorem bind {f : α → Exec β} {R : β → Store → Nat → Machine → Prop}
    (h : Follows fetch deadline t m (x S) P)
    (hf : ∀ a S' t₁ m₁, t ≤ t₁ → P a S' t₁ m₁ → Follows fetch deadline t₁ m₁ (f a S') R) :
    Follows fetch deadline t m ((x >>= f) S) R := by
  cases hrun : x S with
  | ok a S' =>
    rw [hrun] at h
    obtain ⟨t₁, m₁, hreach, hpost⟩ := h
    rw [bind_of_ok hrun]
    exact after hreach (hf a S' t₁ m₁ hreach.le hpost)
  | error stop S' =>
    rw [hrun] at h
    rw [bind_of_error hrun]
    cases stop <;> exact h

/-- What is known of the evaluation holds of where the machine comes to. -/
theorem sound {sig : Signature} {W : HeapTyping} {R : HeapTyping → α → Prop}
    (h : Follows fetch deadline t m (x S) P) (hsound : Sound sig W x R) (hS : S.Typed sig W) :
    Follows fetch deadline t m (x S) fun a S' t₁ m₁ => P a S' t₁ m₁ ∧
      ∃ W' : HeapTyping, W.Extends W' ∧ S'.Typed sig W' ∧ R W' a := by
  have hok := (hsound S hS).2
  cases hrun : x S with
  | ok a S' =>
    rw [hrun] at h
    obtain ⟨t₁, m₁, hreach, hpost⟩ := h
    exact ⟨t₁, m₁, hreach, hpost, hok a S' hrun⟩
  | error stop S' =>
    rw [hrun] at h
    cases stop <;> exact h

end Follows

namespace Exec

/-- The action does to the heap of the machine what the evaluation does to that of the program,
    and nothing else. -/
def Mirrors (x : Exec α) (y : Machine.Action α) : Prop :=
  ∀ (S : Store) (m : Machine), m.heap = S.heap →
    match x S with
    | .ok a S' => S'.statics = S.statics ∧ S'.output = S.output ∧
        y m = .ok a { m with heap := S'.heap }
    | .error (.fault fault) S' => S'.output = S.output ∧
        ∃ m', m'.output = m.output ∧ y m = .error fault m'
    | .error .timeout _ => False
    | .error .stuck _ => True

namespace Mirrors

variable {x : Exec α} {y : Machine.Action α}

theorem pure (a : α) : Mirrors (Pure.pure a) (Pure.pure a) := by
  rintro S m heq
  refine ⟨rfl, rfl, ?_⟩
  rw [← heq]
  rfl

theorem fault (found : Fault) : Mirrors (Exec.fault found : Exec α) (throw found) :=
  fun _ m _ => ⟨rfl, m, rfl, rfl⟩

theorem stuck : Mirrors (Exec.stuck : Exec α) y := fun _ _ _ => trivial

/-- Actions in a row mirror evaluations in a row. -/
theorem bind {f : α → Exec β} {g : α → Machine.Action β} (h : Mirrors x y)
    (hf : ∀ a, Mirrors (f a) (g a)) : Mirrors (x >>= f) (y >>= g) := by
  intro S m heq
  have hfirst := h S m heq
  cases hrun : x S with
  | ok a S' =>
    rw [hrun] at hfirst
    obtain ⟨hstatics, hprinted, hy⟩ := hfirst
    rw [bind_of_ok hrun, bind_of_ok hy]
    have hrest := hf a S' { m with heap := S'.heap } rfl
    cases hrun' : f a S' with
    | ok b S'' =>
      rw [hrun'] at hrest
      obtain ⟨hstatics', hprinted', hg⟩ := hrest
      exact ⟨hstatics'.trans hstatics, hprinted'.trans hprinted, hg⟩
    | error stop S'' =>
      rw [hrun'] at hrest
      cases stop with
      | fault found =>
        obtain ⟨hprinted', m', hsame, hg⟩ := hrest
        exact ⟨hprinted'.trans hprinted, m', hsame, hg⟩
      | timeout => exact hrest.elim
      | stuck => trivial
  | error stop S' =>
    rw [hrun] at hfirst
    rw [bind_of_error hrun]
    cases stop with
    | fault found =>
      obtain ⟨hprinted, m', hsame, hy⟩ := hfirst
      exact ⟨hprinted, m', hsame, bind_of_error hy⟩
    | timeout => exact hfirst.elim
    | stuck => trivial

/-- Reading from the heap of the machine mirrors reading from that of the program. -/
theorem load (place : Datum) : Mirrors (Exec.load place) (read place) := by
  cases place with
  | number n => exact stuck
  | heap n =>
    intro S m heq
    have hread := congrFun (read.eq_1 (.heap n)) m
    rw [bind_of_ok (get_eq_ok_iff.2 ⟨rfl, rfl⟩)] at hread
    rw [Exec.load, bind_of_ok (get_eq_ok_iff.2 ⟨rfl, rfl⟩), hread, ← heq]
    dsimp only
    cases at? m.heap n with
    | some d => exact Mirrors.pure d S m heq
    | none => trivial

/-- Writing to the heap of the machine mirrors writing to that of the program. -/
theorem store (place d : Datum) : Mirrors (Exec.store place d) (write place d) := by
  cases place with
  | number n => exact stuck
  | heap n =>
    refine (load (.heap n)).bind fun _ S m heq => ⟨rfl, rfl, ?_⟩
    dsimp only
    rw [← heq]
    rfl

theorem object (d : Datum) : Mirrors (Exec.object d) (Machine.object d) := by
  unfold Exec.object Machine.object
  split
  next => exact fault _
  next => exact pure d

/-- The machine finds the place of an array element, or the fault, as the evaluation does. -/
theorem element (array index : Datum) :
    Mirrors (Exec.element array index) (Machine.element array index) := by
  unfold Exec.element Exec.length Exec.object Machine.element Machine.object
  by_cases hnull : array = .null
  · rw [if_pos hnull, if_pos hnull]
    exact fun _ m _ => ⟨rfl, m, rfl, rfl⟩
  · rw [if_neg hnull, if_neg hnull]
    refine Mirrors.bind (y := read (array.offset (-1))) (load _) fun length => ?_
    cases index with
    | heap => exact stuck
    | number i =>
      cases length with
      | heap => exact stuck
      | number n =>
        dsimp only
        split
        next => exact pure _
        next => exact fault _

theorem alloc (header : List Datum) (words : Int) :
    Mirrors (Exec.alloc header words) (Machine.alloc header words) := by
  intro S m heq
  obtain ⟨stack, heap, cp, lb, ob, output⟩ := m
  obtain rfl : heap = S.heap := heq
  exact ⟨rfl, rfl, rfl⟩

end Mirrors

end Exec

end SmallJava
