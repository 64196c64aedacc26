import SmallJava.Proofs.Execution.Instructions

namespace SmallJava

open Machine Exec

/-- Values for parameters. -/
def Valuation.ofArgs : List SymbolId → List Datum → Valuation
  | p :: params, d :: args => Function.update (ofArgs params args) p d
  | _, _ => fun _ => .null

/-- Distinct parameters have exactly the values that they were given. -/
theorem Valuation.map_ofArgs {params : List SymbolId} {args : List Datum} (hnodup : params.Nodup)
    (hlength : args.length = params.length) : params.map (ofArgs params args) = args := by
  induction params generalizing args with
  | nil => exact (List.eq_nil_of_length_eq_zero hlength).symm
  | cons p params ih =>
    obtain ⟨hnew, hnodup⟩ := List.nodup_cons.1 hnodup
    cases args with
    | nil => cases hlength
    | cons d args =>
      rw [List.map_cons, ofArgs, Activation.map_update_of_not_mem hnew,
        ih hnodup (Nat.succ.inj hlength), Function.update_self]

namespace Activation

variable {act : Activation} {locals : List SymbolId} {env : Valuation} {S : Store}
  {temps results : List Datum} {a : Nat} {t : Nat}

/-- A method that this one calls, for an object, with words on the stack above its own
    variables and below the arguments. -/
def callee (act : Activation) (locals : List SymbolId) (env : Valuation) (temps : List Datum)
    (params : List SymbolId) (ob : Datum) (returnTo : Address) : Activation where
  statics := act.statics
  below := act.below ++ act.params.map env ++ act.link.words ++ locals.map env ++ temps
  params
  link := ⟨act.lb, act.ob, returnTo⟩
  ob

theorem resumed_callee {params : List SymbolId} {ob : Datum} :
    (act.callee locals env temps params ob a).resumed S results =
      act.machine locals env S (temps ++ results) a := by
  simp [resumed, callee, machine, words]

/-- The frame that a call opens: the arguments stand below its base, and the link to the caller
    above them. -/
theorem entered_callee {params : List SymbolId} {ob : Datum} {args : List Datum} {entry : Address}
    (hnodup : params.Nodup) (hlength : args.length = params.length) :
    (act.callee locals env temps params ob a).machine [] (.ofArgs params args) S [] entry =
      { stack := act.words locals env S ++ (temps ++ args) ++ [.number act.lb, act.ob, .number a]
        heap := S.heap
        cp := entry
        lb := (act.words locals env S ++ (temps ++ args)).length
        ob
        output := S.output } := by
  have hargs := Valuation.map_ofArgs hnodup hlength
  simp only [machine, words, callee, lb, Link.words, hargs]
  simp [hlength]
  omega

end Activation

namespace Image

variable {im : Image} {act : Activation} {locals : List SymbolId} {env : Valuation}
  {S : Store} {temps args results : List Datum} {a entry t deadline : Nat} {params : List SymbolId}
  {ob : Datum}

/-- A call starts the frame of the called method. -/
theorem call_machine (hnodup : params.Nodup) (hlength : args.length = params.length) :
    Machine.call entry ob (act.machine locals env S (temps ++ args) a) =
      .ok () ((act.callee locals env temps params ob a).machine [] (.ofArgs params args) S [] entry) := by
  rw [Activation.entered_callee hnodup hlength]
  unfold Machine.call
  exact jump_natCast _

/-- One step of a call enters the method with the arguments that are on the stack. -/
theorem Holds.reach_call (h : im.Holds a (.call entry)) (hnodup : params.Nodup)
    (hlength : args.length = params.length) :
    Reaches im.fetch t (act.machine locals env S (temps ++ args) a) (t + 1)
      ((act.callee locals env temps params act.ob (a + 1)).machine [] (.ofArgs params args) S []
        entry) :=
  have hexecute : execute (.call entry) (act.machine locals env S (temps ++ args) (a + 1)) =
      (do Machine.call entry act.ob; pure true : Action Bool)
        (act.machine locals env S (temps ++ args) (a + 1)) := rfl
  .one (h.step_machine.trans (hexecute.trans (bind_of_ok (call_machine hnodup hlength))))

/-- A call for an object needs one. -/
theorem Holds.follows_callInstance (h : im.Holds a (.callInstance entry)) (hnodup : params.Nodup)
    (hlength : args.length = params.length) {α : Type} {f : Datum → Exec α}
    {P : α → Store → Nat → Machine → Prop}
    (hcall : ob ≠ .null → Follows im.fetch deadline (t + 1)
      ((act.callee locals env temps params ob (a + 1)).machine [] (.ofArgs params args) S [] entry)
      (f ob S) P) :
    Follows im.fetch deadline t (act.machine locals env S (temps ++ args ++ [ob]) a)
      ((do f (← Exec.object ob)) S) P := by
  have hstep : step im.fetch (act.machine locals env S (temps ++ args ++ [ob]) a) =
      (do
        let owner ← Machine.object ob
        Machine.call entry owner
        pure true : Action Bool) (act.machine locals env S (temps ++ args) (a + 1)) :=
    h.step_machine.trans (bind_of_ok Activation.pop_machine)
  unfold Exec.object
  unfold Machine.object at hstep
  by_cases hnull : ob = .null
  · rw [if_pos hnull]
    rw [if_pos hnull] at hstep
    exact ⟨t, _, _, .refl, hstep, rfl⟩
  · rw [if_neg hnull]
    rw [if_neg hnull] at hstep
    rw [pure_bind, bind_of_ok (call_machine hnodup hlength)] at hstep
    exact .after (.one hstep) (hcall hnull)

/-- The word of the link data at a place. -/
theorem words_link {i : Nat} {d : Datum} (hget : act.link.words[i]? = some d) :
    at? (act.words locals env S ++ temps) (act.lb + i : Nat) = some d := by
  have hlt := (List.getElem?_eq_some_iff.1 hget).1
  have hlength : (act.statics.map S.statics ++ act.below ++ act.params.map env).length = act.lb := by
    simp only [List.length_append, List.length_map, Activation.lb]
  rw [at?_natCast, Activation.words, List.getElem?_append_left, List.getElem?_append_left,
    List.getElem?_append_right, hlength, Nat.add_sub_cancel_left, hget]
  · rw [hlength]
    omega
  · rw [List.length_append, hlength]
    omega
  · rw [List.length_append, List.length_append, hlength]
    omega

/-- A method that returns leaves its results to its caller. -/
theorem Holds.reach_return (h : im.Holds a (.returnWith results.length act.params.length)) :
    Reaches im.fetch t (act.machine locals env S (temps ++ results) a) (t + 1)
      (act.resumed S results) := by
  refine .one (h.step_machine.trans ?_)
  have hkept : (act.words locals env S ++ (temps ++ results)).take
      ((act.words locals env S ++ (temps ++ results)).length - results.length) =
        act.words locals env S ++ temps := by
    rw [← List.append_assoc, List.length_append, Nat.add_sub_cancel, List.take_left]
  have hleft : (act.words locals env S ++ (temps ++ results)).drop
      ((act.words locals env S ++ (temps ++ results)).length - results.length) = results := by
    rw [← List.append_assoc, List.length_append, Nat.add_sub_cancel, List.drop_left]
  have hbelow : (act.words locals env S ++ temps).take
      ((act.lb : Int) - (act.params.length : Nat)).toNat = act.statics.map S.statics ++ act.below := by
    have hlength : ((act.lb : Int) - (act.params.length : Nat)).toNat =
        (act.statics.map S.statics ++ act.below).length := by
      simp only [List.length_append, List.length_map, Activation.lb]
      omega
    have hsplit : act.words locals env S ++ temps = (act.statics.map S.statics ++ act.below) ++
        (act.params.map env ++ (act.link.words ++ (locals.map env ++ temps))) := by
      simp [Activation.words]
    rw [hlength, hsplit, List.take_left]
  have hret : ret results.length act.params.length (act.machine locals env S (temps ++ results) (a + 1)) =
      .ok () (act.resumed S results) := by
    unfold ret Activation.machine
    rw [bind_of_ok (get_eq_ok_iff.2 ⟨rfl, rfl⟩)]
    dsimp only
    have hlb : at? (act.words locals env S ++ temps) act.lb = some (.number act.link.lb) :=
      words_link (i := 0) rfl
    have hob : at? (act.words locals env S ++ temps) (act.lb + 1) = some act.link.ob :=
      words_link (i := 1) rfl
    have hreturn : at? (act.words locals env S ++ temps) (act.lb + 2) =
        some (.number act.link.returnTo) := words_link (i := 2) rfl
    have hargs : ¬ (act.lb : Int) < (act.params.length : Nat) := by
      simp only [Activation.lb]
      omega
    rw [if_neg (by simp; omega), hkept, hleft, hbelow, hlb, hob, hreturn]
    dsimp only
    rw [if_neg hargs]
    exact jump_natCast _
  exact bind_of_ok hret

end Image

end SmallJava
