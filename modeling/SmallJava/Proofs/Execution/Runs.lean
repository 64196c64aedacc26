import SmallJava.Proofs.Execution.Following

namespace SmallJava

namespace Machine

/-- The state after an action, however that ends. -/
def final {α : Type} : EStateM.Result Fault Machine α → Machine
  | .ok _ m => m
  | .error _ m => m

/-- What is printed before an action is printed after it. -/
def Appends {α : Type} (x : Action α) : Prop := ∀ m : Machine, m.output <+: (final (x m)).output

section Appends

variable {α β : Type} {x : Action α}

theorem appends_pure (a : α) : Appends (pure a) := fun _ => List.prefix_rfl

theorem appends_throw (fault : Fault) : Appends (throw fault : Action α) := fun _ => List.prefix_rfl

theorem appends_modify {f : Machine → Machine} (h : ∀ m : Machine, m.output <+: (f m).output) :
    Appends (modify f) := h

/-- Actions in a row only append to the output if each of them does. -/
theorem Appends.bind {f : α → Action β} (h : Appends x) (hf : ∀ a, Appends (f a)) :
    Appends (x >>= f) := by
  intro m
  have hfirst := h m
  cases hrun : x m with
  | ok a m' =>
    rw [hrun] at hfirst
    rw [bind_of_ok hrun]
    exact hfirst.trans (hf a m')
  | error fault m' =>
    rw [hrun] at hfirst
    rw [bind_of_error hrun]
    exact hfirst

/-- A look at the state. -/
theorem appends_get {f : Machine → Action β} (hf : ∀ m, Appends (f m)) : Appends (get >>= f) :=
  Appends.bind (fun _ => List.prefix_rfl) hf

theorem appends_push (d : Datum) : Appends (push d) := appends_modify fun _ => List.prefix_rfl

theorem appends_pop : Appends pop := by
  refine appends_get fun m => ?_
  cases m.stack.getLast? with
  | some d => exact (appends_modify fun _ => List.prefix_rfl).bind fun _ => appends_pure d
  | none => exact appends_throw _

theorem appends_popMany (count : Nat) : Appends (popMany count) := by
  induction count with
  | zero => exact appends_pure ()
  | succ count ih => exact appends_pop.bind fun _ => ih

theorem appends_base (r : Register) : Appends (base r) := by
  refine appends_get fun m => ?_
  cases r <;> first | exact appends_pure _ | exact appends_throw _

theorem appends_read (place : Datum) : Appends (read place) := by
  refine appends_get fun m => ?_
  dsimp only
  split
  next => exact appends_pure _
  next => exact appends_throw _

theorem appends_write (place d : Datum) : Appends (write place d) := by
  refine (appends_read place).bind fun _ => appends_modify fun m => ?_
  cases place <;> exact List.prefix_rfl

theorem appends_jump (target : Int) : Appends (jump target) := by
  unfold jump
  split
  next => exact appends_throw _
  next => exact appends_modify fun _ => List.prefix_rfl

theorem appends_call (target : Int) (object : Datum) : Appends (call target object) := by
  refine Appends.bind (appends_modify fun m => ?_) fun _ => appends_jump target
  exact List.prefix_rfl

/-- A return prints nothing. -/
theorem appends_ret (results args : Nat) : Appends (ret results args) := by
  intro m
  unfold ret
  rw [bind_of_ok (get_eq_ok_iff.2 ⟨rfl, rfl⟩)]
  dsimp only
  by_cases hresults : m.stack.length < results
  · rw [if_pos hresults]
    exact List.prefix_rfl
  rw [if_neg hresults]
  generalize at? _ m.lb = lb?, at? _ (m.lb + 1) = ob?, at? _ (m.lb + 2) = target?
  rcases lb? with _ | (lb | _) <;> rcases ob? with _ | ob <;> rcases target? with _ | (target | _)
  all_goals try exact List.prefix_rfl
  by_cases hargs : m.lb < args
  · simp only [if_pos hargs]
    exact List.prefix_rfl
  · simp only [if_neg hargs]
    exact appends_jump target { m with stack := _, lb := lb, ob := ob }

theorem appends_alloc (header : List Datum) (words : Int) : Appends (alloc header words) :=
  fun _ => List.prefix_rfl

theorem appends_object (d : Datum) : Appends (object d) := by
  unfold object
  split
  next => exact appends_throw _
  next => exact appends_pure _

theorem appends_element (array index : Datum) : Appends (element array index) := by
  refine (appends_object array).bind fun array => ?_
  refine (appends_read _).bind fun length => ?_
  split
  next =>
    split
    next => exact appends_pure _
    next => exact appends_throw _
  next => exact appends_throw _

/-- A primitive with two operands leaves its result in their place. -/
theorem appends_compute (p : Primitive) : Appends (do
    let right ← pop
    let left ← pop
    match p.compute left right with
    | .ok d => push d
    | .error fault => throw fault) := by
  refine appends_pop.bind fun right => ?_
  refine appends_pop.bind fun left => ?_
  cases p.compute left right with
  | ok d => exact appends_push d
  | error fault => exact appends_throw fault

/-- What is found at a place goes onto the stack. -/
theorem appends_fetch (place : Datum) : Appends (read place >>= push) :=
  (appends_read place).bind appends_push

/-- A primitive only appends to the output: the one that prints appends a word, and the others leave
    it as it is. -/
theorem appends_primitive (p : Primitive) : Appends (primitive p) := by
  have hcompute := appends_compute p
  cases p with
  | not =>
    refine appends_pop.bind fun d => ?_
    exact appends_push _
  | neg =>
    refine appends_pop.bind fun d => ?_
    cases d.word? with
    | some word => exact appends_push _
    | none => exact appends_throw _
  | putintnl =>
    refine appends_pop.bind fun d => ?_
    exact appends_modify fun m => List.prefix_append _ _
  | arraylen =>
    refine appends_pop.bind fun array => ?_
    refine (appends_object array).bind fun object => ?_
    exact appends_fetch _
  | newarr =>
    refine appends_pop.bind fun d => ?_
    cases d with
    | number count =>
      dsimp only
      split
      next => exact appends_throw _
      next => exact (appends_alloc _ _).bind fun _ => appends_push _
    | heap => exact appends_throw _
  | newobj =>
    refine appends_pop.bind fun size => ?_
    refine appends_pop.bind fun cls => ?_
    cases size with
    | number count => exact (appends_alloc _ _).bind fun _ => appends_push _
    | heap => exact appends_throw _
  | arrayref =>
    refine appends_pop.bind fun index => ?_
    refine appends_pop.bind fun array => ?_
    refine (appends_element array index).bind fun place => ?_
    exact appends_fetch place
  | arrayupd =>
    refine appends_pop.bind fun d => ?_
    refine appends_pop.bind fun index => ?_
    refine appends_pop.bind fun array => ?_
    refine (appends_element array index).bind fun place => ?_
    exact appends_write place d
  | fieldref =>
    refine appends_pop.bind fun d => ?_
    refine appends_pop.bind fun object => ?_
    refine (appends_object object).bind fun object => ?_
    cases d with
    | number d => exact appends_fetch _
    | heap => exact appends_throw _
  | fieldupd =>
    refine appends_pop.bind fun value => ?_
    refine appends_pop.bind fun d => ?_
    refine appends_pop.bind fun object => ?_
    refine (appends_object object).bind fun object => ?_
    cases d with
    | number d => exact appends_write _ value
    | heap => exact appends_throw _
  | _ => exact hcompute

/-- After most instructions the machine goes on. -/
theorem Appends.goesOn (h : Appends x) : Appends (x >>= fun _ => pure true) :=
  h.bind fun _ => appends_pure true

/-- No instruction takes back what was printed. -/
theorem appends_execute (instr : Instruction) : Appends (execute instr) := by
  obtain ⟨op, n, r, d⟩ := instr
  cases op with
  | load =>
    refine (appends_base r).bind fun base => ?_
    refine (appends_read _).bind fun found => ?_
    exact (appends_push found).goesOn
  | loada =>
    refine (appends_base r).bind fun base => ?_
    exact (appends_push _).goesOn
  | loadl => exact (appends_push _).goesOn
  | store =>
    refine appends_pop.bind fun d => ?_
    refine (appends_base r).bind fun base => ?_
    exact (appends_write _ d).goesOn
  | push => exact Appends.goesOn (appends_modify fun m => List.prefix_rfl)
  | pop => exact (appends_popMany _).goesOn
  | call =>
    unfold execute
    dsimp only
    split
    next =>
      split
      next => exact (appends_primitive _).goesOn
      next => exact (appends_throw _).goesOn
    next =>
      refine appends_get fun m => ?_
      exact (appends_call d m.ob).goesOn
  | calli =>
    refine appends_pop.bind fun receiver => ?_
    refine (appends_object receiver).bind fun object => ?_
    exact (appends_call d _).goesOn
  | «return» => exact (appends_ret _ _).goesOn
  | jump => exact (appends_jump _).goesOn
  | jumpif =>
    refine appends_pop.bind fun found => ?_
    split
    next => exact (appends_jump _).goesOn
    next => exact appends_pure true
  | halt => exact appends_pure false
  | _ => exact appends_throw _

/-- A step only appends to the output. -/
theorem appends_step (fetch : Address → Option Instruction) : Appends (step fetch) := by
  intro m
  unfold step
  rw [bind_of_ok (get_eq_ok_iff.2 ⟨rfl, rfl⟩)]
  cases fetch m.cp with
  | some instr => exact appends_execute instr { m with cp := m.cp + 1 }
  | none => exact List.prefix_rfl

end Appends

/-- The run stops in this way, when these values are printed. -/
def Ends (fetch : Address → Option Instruction) (m : Machine) (status : Status)
    (output : List Datum) : Prop :=
  status ≠ .running ∧ ∃ n m', after fetch n m = (status, m') ∧ m'.output = output

/-- The run never stops. -/
def RunsForever (fetch : Address → Option Instruction) (m : Machine) : Prop :=
  ∀ n, (after fetch n m).1 = .running

/-- What the run prints in this place, counted from zero. -/
def Prints (fetch : Address → Option Instruction) (m : Machine) (i : Nat) (d : Datum) : Prop :=
  ∃ n, (after fetch n m).2.output[i]? = some d

/-- From the first instruction on, the two programs print the same values in the same order, and
    they end in the same way, if they end. -/
structure SameRun (fetch fetch' : Address → Option Instruction) : Prop where
  prints : ∀ i d, Prints fetch {} i d ↔ Prints fetch' {} i d
  halts : ∀ output, Ends fetch {} .halted output ↔ Ends fetch' {} .halted output
  faults : ∀ fault output,
    Ends fetch {} (.faulted fault) output ↔ Ends fetch' {} (.faulted fault) output
  forever : RunsForever fetch {} ↔ RunsForever fetch' {}

section Runs

variable {fetch fetch' : Address → Option Instruction} {m m' : Machine} {t t' n : Nat}
  {status status' : Status} {output output' : List Datum}

/-- The state after `n + k` steps is the state after `k` more steps, if the machine still runs after
    `n`. -/
theorem after_add_of_running (hrun : after fetch n m = (.running, m')) (k : Nat) :
    after fetch (n + k) m = after fetch k m' := by
  induction n generalizing m with
  | zero =>
    obtain rfl : m = m' := congrArg Prod.snd hrun
    rw [Nat.zero_add]
  | succ n ih =>
    rw [Nat.succ_add]
    unfold after at hrun
    rw [after]
    split at hrun
    next m₁ hstep => exact ih hrun
    next m₁ hstep => cases congrArg Prod.fst hrun
    next fault m₁ hstep => cases congrArg Prod.fst hrun

/-- A run that has stopped stays as it is. -/
theorem after_add_of_stopped (hstopped : (after fetch n m).1 ≠ .running) (k : Nat) :
    after fetch (n + k) m = after fetch n m := by
  induction n generalizing m with
  | zero => exact absurd rfl hstopped
  | succ n ih =>
    rw [Nat.succ_add]
    unfold after at hstopped ⊢
    split at hstopped
    next m₁ hstep => exact ih hstopped
    next m₁ hstep => rfl
    next fault m₁ hstep => rfl

/-- What is printed stays printed. -/
theorem output_after (k : Nat) : m.output <+: (after fetch k m).2.output := by
  induction k generalizing m with
  | zero => exact List.prefix_rfl
  | succ k ih =>
    have hfirst := appends_step fetch m
    unfold after
    split
    next m₁ hstep =>
      rw [hstep] at hfirst
      exact hfirst.trans ih
    next m₁ hstep =>
      rw [hstep] at hfirst
      exact hfirst
    next fault m₁ hstep =>
      rw [hstep] at hfirst
      exact hfirst

/-- What is printed at a time is printed later. -/
theorem output_after_add (k : Nat) :
    (after fetch n m).2.output <+: (after fetch (n + k) m).2.output := by
  by_cases hrunning : (after fetch n m).1 = .running
  · have hrun : after fetch n m = (.running, (after fetch n m).2) := Prod.ext hrunning rfl
    rw [after_add_of_running hrun]
    exact output_after k
  · have hsame := after_add_of_stopped hrunning k
    exact ⟨[], by rw [List.append_nil, hsame]⟩

theorem getElem?_of_prefix (h : output <+: output') {i : Nat} {d : Datum} (hget : output[i]? = some d) :
    output'[i]? = some d := by
  obtain ⟨more, rfl⟩ := h
  rwa [List.getElem?_append_left (List.getElem?_eq_some_iff.1 hget).1]

/-- A machine that reaches a state is in this state after as many steps, and still runs. -/
theorem Reaches.after (h : Reaches fetch t m t' m') :
    Machine.after fetch (t' - t) m = (.running, m') := by
  induction h with
  | refl =>
    rw [Nat.sub_self]
    rfl
  | @step t m m₁ t₂ m₂ hstep hrest ih =>
    have hle := hrest.le
    obtain ⟨k, hk⟩ : ∃ k, t₂ - t = k + 1 := ⟨t₂ - (t + 1), by omega⟩
    rw [hk, Machine.after, hstep]
    rwa [show t₂ - (t + 1) = k by omega] at ih

/-- A run that comes to a fault ends with it. -/
theorem Reaches.ends_faulted (h : Reaches fetch t m t' m') {fault : Fault} {m₁ : Machine}
    (hstep : Machine.step fetch m' = .error fault m₁) : Ends fetch m (.faulted fault) m₁.output := by
  refine ⟨nofun, t' - t + 1, m₁, ?_, rfl⟩
  rw [after_add_of_running h.after, Machine.after, hstep]

/-- A run stops in one way. -/
theorem Ends.iff (h : Ends fetch m status output) :
    Ends fetch m status' output' ↔ status' = status ∧ output' = output := by
  constructor
  · intro h'
    obtain ⟨hstatus, n, m₁, hrun, rfl⟩ := h
    obtain ⟨hstatus', n', m₂, hrun', rfl⟩ := h'
    have hlong := after_add_of_stopped (n := n) (by rw [hrun]; exact hstatus) n'
    have hlong' := after_add_of_stopped (n := n') (by rw [hrun']; exact hstatus') n
    rw [Nat.add_comm, hlong, hrun, hrun'] at hlong'
    obtain ⟨rfl, rfl⟩ := Prod.mk.inj hlong'
    exact ⟨rfl, rfl⟩
  · rintro ⟨rfl, rfl⟩
    exact h

theorem Ends.not_runsForever (h : Ends fetch m status output) : ¬ RunsForever fetch m := by
  obtain ⟨hstatus, n, m', hrun, -⟩ := h
  intro hforever
  have hrunning := hforever n
  rw [hrun] at hrunning
  exact hstatus hrunning

/-- A machine that ends prints exactly the words of its final output. -/
theorem Ends.prints_iff (h : Ends fetch m status output) {i : Nat} {d : Datum} :
    Prints fetch m i d ↔ output[i]? = some d := by
  obtain ⟨hstatus, n, m', hrun, rfl⟩ := h
  constructor
  · rintro ⟨k, hget⟩
    have hstopped := after_add_of_stopped (n := n) (by rw [hrun]; exact hstatus) k
    have hle : (after fetch k m).2.output <+: (after fetch (k + n) m).2.output := output_after_add n
    rw [Nat.add_comm, hstopped, hrun] at hle
    exact getElem?_of_prefix hle hget
  · intro hget
    exact ⟨n, by rw [hrun]; exact hget⟩

/-- Programs that stop in the same way run in the same way. -/
theorem SameRun.of_ends (h : Ends fetch {} status output) (h' : Ends fetch' {} status output) :
    SameRun fetch fetch' where
  prints _ _ := h.prints_iff.trans h'.prints_iff.symm
  halts _ := h.iff.trans h'.iff.symm
  faults _ _ := h.iff.trans h'.iff.symm
  forever := iff_of_false h.not_runsForever h'.not_runsForever

/-- However much time is given, the run takes longer, and has then printed this. -/
def Outlasts (fetch : Address → Option Instruction) (m : Machine) (printed : Nat → List Datum) :
    Prop :=
  ∀ deadline, ∃ n m', deadline ≤ n ∧ after fetch n m = (.running, m') ∧ m'.output = printed deadline

variable {printed : Nat → List Datum}

theorem Outlasts.runsForever (h : Outlasts fetch m printed) : RunsForever fetch m := by
  intro n
  by_contra hstopped
  obtain ⟨n', m', hle, hrun, -⟩ := h n
  have hlong := after_add_of_stopped hstopped (n' - n)
  rw [Nat.add_sub_cancel' hle, hrun] at hlong
  exact hstopped (congrArg Prod.fst hlong).symm

/-- A machine that outlasts every deadline prints exactly what it has printed by some deadline. -/
theorem Outlasts.prints_iff (h : Outlasts fetch m printed) {i : Nat} {d : Datum} :
    Prints fetch m i d ↔ ∃ deadline, (printed deadline)[i]? = some d := by
  constructor
  · rintro ⟨k, hget⟩
    obtain ⟨n, m', hle, hrun, heq⟩ := h k
    have hgrows : (after fetch k m).2.output <+: (after fetch (k + (n - k)) m).2.output :=
      output_after_add (n - k)
    rw [Nat.add_sub_cancel' hle, hrun] at hgrows
    exact ⟨k, heq ▸ getElem?_of_prefix hgrows hget⟩
  · rintro ⟨deadline, hget⟩
    obtain ⟨n, m', -, hrun, heq⟩ := h deadline
    exact ⟨n, by rw [hrun]; exact heq ▸ hget⟩

/-- Programs that never stop run in the same way, if they have printed the same at times as late
    as you like. -/
theorem SameRun.of_outlasts (h : Outlasts fetch {} printed) (h' : Outlasts fetch' {} printed) :
    SameRun fetch fetch' where
  prints _ _ := h.prints_iff.trans h'.prints_iff.symm
  halts _ := iff_of_false (fun hends => hends.not_runsForever h.runsForever)
    fun hends => hends.not_runsForever h'.runsForever
  faults _ _ := iff_of_false (fun hends => hends.not_runsForever h.runsForever)
    fun hends => hends.not_runsForever h'.runsForever
  forever := iff_of_true h.runsForever h'.runsForever

end Runs

section Following

variable {α : Type} {fetch fetch' : Address → Option Instruction} {deadline : Nat} {m : Machine}
  {S : Store} {result : EStateM.Result Stop Store α}

/-- The machine halts with what the evaluation printed. -/
def Halts (fetch : Address → Option Instruction) (_ : α) (S : Store) (_ : Nat) (m : Machine) : Prop :=
  ∃ m', step fetch m = .ok false m' ∧ m'.output = S.output

/-- How the evaluation of a whole program shows in a run that follows it. -/
def Shows (fetch : Address → Option Instruction) (m : Machine) (deadline : Nat) :
    EStateM.Result Stop Store α → Prop
  | .ok _ S => Ends fetch m .halted S.output
  | .error (.fault fault) S => Ends fetch m (.faulted fault) S.output
  | .error .timeout S =>
    ∃ n m', deadline ≤ n ∧ after fetch n m = (.running, m') ∧ m'.output = S.output
  | .error .stuck _ => True

/-- A machine that follows an evaluation until it halts shows what the evaluation does. -/
theorem shows_of_follows (h : Follows fetch deadline 0 m result (Halts fetch)) :
    Shows fetch m deadline result := by
  match result with
  | .ok a S =>
    obtain ⟨t, m₁, hreach, m₂, hstep, hprinted⟩ := h
    refine ⟨nofun, t + 1, m₂, ?_, hprinted⟩
    have hrun : Machine.after fetch t m = (.running, m₁) := hreach.after
    rw [after_add_of_running hrun, Machine.after, hstep]
  | .error (.fault fault) S =>
    obtain ⟨t, m₁, m₂, hreach, hstep, hprinted⟩ := h
    have hends : Ends fetch m (.faulted fault) m₂.output := hreach.ends_faulted hstep
    rw [hprinted] at hends
    exact hends
  | .error .timeout S =>
    obtain ⟨t, m₁, hreach, hlate, hprinted⟩ := h
    exact ⟨t, m₁, hlate, hreach.after, hprinted⟩
  | .error .stuck S => trivial

/-- Two programs run in the same way if both show what an evaluation does, for however long that
    is given. -/
theorem SameRun.of_shows {results : Nat → EStateM.Result Stop Store α}
    (hstuck : ∀ deadline S, results deadline ≠ .error .stuck S)
    (h : ∀ deadline, Shows fetch {} deadline (results deadline))
    (h' : ∀ deadline, Shows fetch' {} deadline (results deadline)) : SameRun fetch fetch' := by
  by_cases hends : ∃ status output, Ends fetch {} status output ∧ Ends fetch' {} status output
  · obtain ⟨status, output, hends, hends'⟩ := hends
    exact .of_ends hends hends'
  · -- no evaluation comes to an end, so that all run out of time
    have hlate : ∀ deadline, ∃ S, results deadline = .error .timeout S := by
      intro deadline
      have hshows := h deadline
      have hshows' := h' deadline
      cases hresult : results deadline with
      | ok a S =>
        rw [hresult] at hshows hshows'
        exact absurd ⟨_, _, hshows, hshows'⟩ hends
      | error stop S =>
        rw [hresult] at hshows hshows'
        cases stop with
        | fault fault => exact absurd ⟨_, _, hshows, hshows'⟩ hends
        | timeout => exact ⟨S, rfl⟩
        | stuck => exact absurd hresult (hstuck deadline S)
    choose stores hstores using hlate
    have houtlasts : Outlasts fetch {} fun deadline => (stores deadline).output := fun deadline => by
      have hshows := h deadline
      rwa [hstores] at hshows
    have houtlasts' : Outlasts fetch' {} fun deadline => (stores deadline).output := fun deadline => by
      have hshows := h' deadline
      rwa [hstores] at hshows
    exact .of_outlasts houtlasts houtlasts'

end Following

end Machine

end SmallJava
