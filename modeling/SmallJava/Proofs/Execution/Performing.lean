import SmallJava.Proofs.Execution.Loaded
import SmallJava.Proofs.Execution.Timely

namespace SmallJava

open Machine Exec

/-- From a state on, the machine does what an evaluation with this result did: it comes to a state
    as described, or it stops with the same fault after the same output. The evaluation makes
    sense and comes to an end. -/
def Machine.Performs {α : Type} (fetch : Address → Option Instruction) (m : Machine)
    (result : EStateM.Result Stop Store α) (Post : α → Store → Machine → Prop) : Prop :=
  match result with
  | .ok a S => ∃ t m', Reaches fetch 0 m t m' ∧ Post a S m'
  | .error (.fault fault) S => ∃ t m' m'', Reaches fetch 0 m t m' ∧
      step fetch m' = .error fault m'' ∧ m''.output = S.output
  | .error .timeout _ | .error .stuck _ => False

/-- It does not matter when the machine starts. -/
theorem Machine.Reaches.shift {fetch : Address → Option Instruction} {t t' : Nat} {m m' : Machine}
    (h : Reaches fetch t m t' m') (s : Nat) : ∃ s', Reaches fetch s m s' m' := by
  induction h generalizing s with
  | refl => exact ⟨s, .refl⟩
  | step hstep _ ih =>
    obtain ⟨s', hrest⟩ := ih (s + 1)
    exact ⟨s', .step hstep hrest⟩

section Performs

variable {α : Type} {fetch : Address → Option Instruction} {m : Machine} {deadline t : Nat}
  {S : Store} {P : α → Store → Machine → Prop}

/-- A machine that performs an evaluation follows it, whatever the deadline. -/
theorem Machine.Performs.follows {result : EStateM.Result Stop Store α}
    (h : Performs fetch m result P) :
    Follows fetch deadline t m result fun a S' _ m' => P a S' m' := by
  match result with
  | .ok a S' =>
    obtain ⟨_, m', hreach, hpost⟩ := h
    obtain ⟨t', hreach⟩ := hreach.shift t
    exact ⟨t', m', hreach, hpost⟩
  | .error (.fault fault) S' =>
    obtain ⟨_, m', m'', hreach, hfault⟩ := h
    obtain ⟨t', hreach⟩ := hreach.shift t
    exact ⟨t', m', m'', hreach, hfault⟩
  | .error .timeout S' => exact h.elim
  | .error .stuck S' => exact h.elim

/-- To follow an evaluation that makes sense and comes to an end is to do what it does. -/
theorem Follows.performs {x : Exec α} {sig : Signature} {W : HeapTyping}
    {R : HeapTyping → α → Prop} (h : Follows fetch deadline t m (x S) fun a S' _ m' => P a S' m')
    (hsound : Sound sig W x R) (hS : S.Typed sig W) (htimely : Timely x) :
    Performs fetch m (x S) P := by
  cases hrun : x S with
  | ok a S' =>
    rw [hrun] at h
    obtain ⟨_, m', hreach, hpost⟩ := h
    obtain ⟨t', hreach⟩ := hreach.shift 0
    exact ⟨t', m', hreach, hpost⟩
  | error stop S' =>
    rw [hrun] at h
    cases stop with
    | fault fault =>
      obtain ⟨_, m', m'', hreach, hfault⟩ := h
      obtain ⟨t', hreach⟩ := hreach.shift 0
      exact ⟨t', m', m'', hreach, hfault⟩
    | timeout => exact htimely S S' hrun
    | stuck => exact (hsound S hS).1 S' hrun

end Performs

/-- The static fields of a program, in the order of their places. -/
def Analysis.statics (analysis : Analysis) : List SymbolId :=
  analysis.table.signature.staticFields analysis.table.classes

/-- Methods are what the scene says they are, whatever that is: entered with their arguments, for
    their object, they take these and their frame off the stack, leave a result of their type if
    they have one, and go on where they were called. -/
structure Image.Provides (im : Image) (statics : List SymbolId) (sc : Scene) : Prop where
  sig : sc.sig = im.signature
  typed : sc.Invokes im.signature
  timely : ∀ m this args, Timely (sc.invoke m this args)
  entered : ∀ m info, im.signature.kind? m = some (.method info) →
    ∃ entry : Nat, im.slot? m = some (entry : Int) ∧
      ∀ (act : Activation) (W : HeapTyping) S this args, act.statics = statics →
        act.params = im.signature.paramsOf m →
        (info.modifiers.isStatic = false → act.ob = this ∧ this ≠ .null ∧
          this.HasTy im.signature W (.object info.owner)) →
        List.Forall₂ (fun d p => d.HasTy im.signature W (im.signature.typeOf p)) args act.params →
        S.Typed im.signature W →
          Performs im.fetch (act.machine [] (.ofArgs act.params args) S [] entry)
            (sc.invoke m this args S) fun result S' m' => m' = act.resumed S' result.toList

/-- A program in memory that provides the methods answers the calls, whatever the deadline. -/
theorem Image.Provides.answers {im : Image} {statics : List SymbolId} {sc : Scene}
    (h : im.Provides statics sc) (deadline start : Nat) : im.Answers statics sc deadline start := by
  intro m info d hkind hslot
  obtain ⟨entry, hentry, hperforms⟩ := h.entered m info hkind
  refine ⟨entry, Option.some.inj (hslot.symm.trans hentry), ?_⟩
  intro act W S t this args hstatics hparams hobject hargs hS _
  exact (hperforms act W S this args hstatics hparams hobject hargs hS).follows

/-- A method runs where these variables are in force: everything holds a value of its type (a truth
    value is 0 or 1), and outside of loops variables have the values that are known of them. -/
structure Activation.At (act : Activation) (Γ : Context) (locals : List SymbolId) (site : Site)
    (known : Dict SymbolId Word) (this : Datum) (W : HeapTyping) (env : Valuation) (S : Store) :
    Prop where
  params : act.params = Γ.params
  object : Γ.isStatic = false →
    act.ob = this ∧ this ≠ .null ∧ this.HasTy Γ.sig W (.object Γ.cls)
  valuation : env.Typed Γ.sig W (Γ.params ++ locals)
  store : S.Typed Γ.sig W
  known : site.inLoop = false → ∀ x ∈ Γ.params ++ locals, ∀ word, known.get? x = some word →
    env x = .ofWord word

end SmallJava
