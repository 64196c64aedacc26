import SmallJava.Analysis.Env

namespace SmallJava

/-- Analysis of a node of type `ν`. It may report any number of diagnostics and
    go on; a fatal one ends it, and then all that is left besides the log is
    the node as far as it was annotated. -/
abbrev Check (ν : Type) := EStateM ν Diagnostic.Log

namespace Check

variable {μ ν α : Type}

def report (found : List Diagnostic) : Check ν Unit := modify (· ++ found)

/-- Reports and ends the analysis of `node`. -/
def abort (node : ν) (fatal : Diagnostic) : Check ν α := do
  report [fatal]
  throw node

def orAbort (node : ν) : Except Diagnostic α → Check ν α
  | .ok value => pure value
  | .error fatal => abort node fatal

/-- Analysis of a part of a node. If it ends early, `rebuild` puts the part back
    in its place. -/
def within (rebuild : μ → ν) (part : Check μ α) : Check ν α := fun log =>
  match part log with
  | .ok value log => .ok value log
  | .error node log => .error (rebuild node) log

section Within

variable {rebuild : μ → ν} {part : Check μ α} {log log' : Diagnostic.Log}

theorem within_eq_ok_iff {a : α} : within rebuild part log = .ok a log' ↔ part log = .ok a log' := by
  unfold within
  cases part log <;> simp

/-- An analysis of a part that ends early leaves the part in its place. -/
theorem within_eq_error_iff {node : ν} : within rebuild part log = .error node log' ↔
    ∃ found, part log = .error found log' ∧ rebuild found = node := by
  unfold within
  cases part log with
  | ok a mid => simp
  | error found mid =>
    constructor
    · rintro ⟨⟩
      exact ⟨found, rfl, rfl⟩
    · rintro ⟨_, ⟨⟩, rfl⟩
      rfl

end Within

/-- Records what a typing rule found and goes on with the type it gives. -/
def conclude (verdict : Ty × List Diagnostic) : Check ν Ty := do
  report verdict.2
  pure verdict.1

end Check

/-- Analysis that also adds declarations and names. What it added is of no
    interest once a fatal diagnostic ended it. -/
abbrev Walk (ν : Type) := StateT Bindings (Check ν)

namespace Walk

variable {α μ ν : Type}

def within (rebuild : μ → ν) (part : Walk μ α) : Walk ν α := fun bindings =>
  Check.within rebuild (part bindings)

def report (found : List Diagnostic) : Walk ν Unit := liftM (Check.report found : Check ν Unit)

def onScope (f : Scope → Scope) : Walk ν Unit :=
  modify fun bindings => { bindings with scope := f bindings.scope }

/-- Walks over the members of a list in order. If one ends early, the ones
    before it are walked and the ones after it are untouched. -/
def each (walk : ν → Walk ν ν) : List ν → Walk (List ν) (List ν)
  | [] => pure []
  | node :: rest => do
    let node ← within (· :: rest) (walk node)
    let rest ← within (node :: ·) (each walk rest)
    pure (node :: rest)

end Walk

end SmallJava
