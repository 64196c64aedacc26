namespace SmallJava

variable {ε σ α β : Type}

/-- A sequence of two actions succeeds exactly if both do, one after the other. -/
theorem bind_eq_ok_iff {x : EStateM ε σ α} {f : α → EStateM ε σ β} {s s' : σ} {b : β} :
    (x >>= f) s = .ok b s' ↔ ∃ a mid, x s = .ok a mid ∧ f a mid = .ok b s' := by
  change EStateM.bind x f s = .ok b s' ↔ _
  unfold EStateM.bind
  cases x s with
  | ok a mid =>
    constructor
    · intro h
      exact ⟨a, mid, rfl, h⟩
    · rintro ⟨_, _, ⟨⟩, h⟩
      exact h
  | error e mid => simp

/-- A sequence of two actions fails if the first does, or the second after it. -/
theorem bind_eq_error_iff {x : EStateM ε σ α} {f : α → EStateM ε σ β} {s s' : σ} {e : ε} :
    (x >>= f) s = .error e s' ↔
      x s = .error e s' ∨ ∃ a mid, x s = .ok a mid ∧ f a mid = .error e s' := by
  change EStateM.bind x f s = .error e s' ↔ _
  unfold EStateM.bind
  cases x s with
  | ok a mid =>
    constructor
    · intro h
      exact .inr ⟨a, mid, rfl, h⟩
    · intro h
      obtain h | ⟨_, _, hmid, h⟩ := h
      · cases h
      · cases hmid
        exact h
  | error e mid => simp

/-- A result that passes a test is no error. -/
theorem exists_ok_of_any {x : Except ε α × σ} {p : α → Bool} (h : x.1.toOption.any p = true) :
    ∃ a s, x = (.ok a, s) ∧ p a = true := by
  obtain ⟨result, s⟩ := x
  cases result with
  | error e => cases h
  | ok a => exact ⟨a, s, rfl, h⟩

/-- Whether an action succeeded, and what it left passes a test. -/
def okAnd (result : EStateM.Result ε σ α) (p : α → σ → Bool) : Bool :=
  match result with
  | .ok a s => p a s
  | .error .. => false

theorem exists_ok_of_okAnd {result : EStateM.Result ε σ α} {p : α → σ → Bool}
    (h : okAnd result p = true) : ∃ a s, result = .ok a s ∧ p a s = true := by
  cases result with
  | ok a s => exact ⟨a, s, rfl, h⟩
  | error e s => cases h

theorem bind_of_ok {x : EStateM ε σ α} {f : α → EStateM ε σ β} {s mid : σ} {a : α}
    (hx : x s = .ok a mid) : (x >>= f) s = f a mid := by
  change EStateM.bind x f s = _
  unfold EStateM.bind
  rw [hx]

theorem bind_of_error {x : EStateM ε σ α} {f : α → EStateM ε σ β} {s mid : σ} {e : ε}
    (hx : x s = .error e mid) : (x >>= f) s = .error e mid := by
  change EStateM.bind x f s = _
  unfold EStateM.bind
  rw [hx]

/-- A mapped computation succeeds if and only if the computation does, and its result is the image.
    -/
theorem map_eq_ok_iff {x : EStateM ε σ α} {f : α → β} {s s' : σ} {b : β} :
    (f <$> x) s = .ok b s' ↔ ∃ a, x s = .ok a s' ∧ f a = b := by
  change EStateM.map f x s = .ok b s' ↔ _
  unfold EStateM.map
  cases x s with
  | ok a mid =>
    constructor
    · rintro ⟨⟩
      exact ⟨a, rfl, rfl⟩
    · rintro ⟨_, ⟨⟩, rfl⟩
      rfl
  | error e mid => simp

@[simp]
theorem pure_eq_ok_iff {a b : α} {s s' : σ} :
    (pure a : EStateM ε σ α) s = .ok b s' ↔ a = b ∧ s = s' := by
  change EStateM.Result.ok a s = .ok b s' ↔ _
  simp

@[simp]
theorem throw_ne_ok {e : ε} {a : α} {s s' : σ} :
    (throw e : EStateM ε σ α) s ≠ .ok a s' := by
  change EStateM.Result.error e s ≠ .ok a s'
  simp

@[simp]
theorem get_eq_ok_iff {a s s' : σ} : (get : EStateM ε σ σ) s = .ok a s' ↔ s = a ∧ s = s' := by
  change EStateM.Result.ok s s = .ok a s' ↔ _
  simp

@[simp]
theorem modify_eq_ok_iff {f : σ → σ} {u : PUnit} {s s' : σ} :
    (modify f : EStateM ε σ PUnit) s = .ok u s' ↔ f s = s' := by
  change EStateM.Result.ok PUnit.unit (f s) = .ok u s' ↔ _
  simp

end SmallJava
