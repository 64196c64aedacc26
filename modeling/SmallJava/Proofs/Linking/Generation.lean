import SmallJava.Proofs.Codegen.StmtEmission
import SmallJava.Proofs.Linking.Draft

namespace SmallJava

open Gen

namespace Reference

/-- The code that pushes a path leaves no jump waiting. -/
theorem push_wires (target : Reference) : Wires [] target.push fun _ => [] := by
  induction target with
  | this annot => exact wires_loadAddress .ob 0
  | ident annot name =>
    refine (wires_bound ..).bind fun x => ?_
    refine (wires_of_look fun _ _ _ hplace => (place_eq_ok_iff.1 hplace).2.2).bind fun place => ?_
    exact wires_load place.1 place.2
  | member annot owner name ih =>
    refine (wires_bound ..).bind fun x => ?_
    refine wires_table.bind fun table => ?_
    split
    next => exact ih.bind fun _ => wires_primitive .arraylen
    next =>
      split
      next => exact (wires_expectSlot x).bind fun d => wires_load .sb d
      next =>
        split
        next => exact (wires_expectSlot x).bind fun d => wires_load .ob d
        next =>
          refine ih.bind fun _ => ?_
          refine (wires_expectSlot x).bind fun d => ?_
          exact (wires_literal d).bind fun _ => wires_primitive .fieldref
    next => exact wires_throw _

/-- The code that prepares an assignment leaves no jump waiting. -/
theorem destination_wires (target : Reference) : Wires [] target.destination fun _ => [] := by
  cases target with
  | this annot => exact wires_throw _
  | ident annot name =>
    refine (wires_bound ..).bind fun x => ?_
    exact (wires_of_look fun _ _ _ hplace => (place_eq_ok_iff.1 hplace).2.2).bind fun place =>
      wires_pure _
  | member annot owner name =>
    refine (wires_bound ..).bind fun x => ?_
    refine wires_table.bind fun table => ?_
    split
    next =>
      refine (wires_expectSlot x).bind fun d => ?_
      split
      next => exact wires_pure _
      next =>
        split
        next => exact wires_pure _
        next =>
          refine owner.push_wires.bind fun _ => ?_
          refine (wires_literal d).bind fun _ => ?_
          exact wires_pure _
    next => exact wires_throw _

end Reference

namespace Gen

theorem wires_pushReceiver (callee : Reference) : Wires [] (pushReceiver callee) fun _ => [] := by
  cases callee with
  | member annot owner name => exact owner.push_wires
  | this annot => exact wires_loadAddress .ob 0
  | ident annot name => exact wires_loadAddress .ob 0

/-- A call instruction gets the slot of its method if there is one, and is noted if not. -/
theorem emitCall_steps {lo : Nat} (onInstance : Bool) {method : SymbolId} {s s' : GenState}
    (hmethod : s.table.isMethod method = true) (hstatic : s.table.isStatic method = !onInstance)
    (hemit : emit (·.call onInstance method (s.table.slot? method)) s = .ok () s')
    (waiting : List Label) : Draft.Steps lo ⟨s, waiting⟩ ⟨s', waiting⟩ := by
  have hcalls : ∀ d, Instruction.Calls s.table.signature
      ⟨if onInstance then .calli else .call, 0, .cb, d⟩ method := by
    intro d
    refine ⟨?_, hmethod, ?_⟩
    · cases onInstance <;> rfl
    · rw [SymbolTable.signature_isStatic, hstatic]
      cases onInstance <;> simp
  obtain rfl := emit_eq_ok_iff.1 hemit
  unfold Assembler.call
  cases hslot : s.table.slot? method with
  | some entry => exact .single (.call ⟨_, 0, .cb, entry⟩ (hcalls entry) hslot)
  | none => exact .single (.callLater (hcalls _) hslot)

/-- A call of a method is one step: its address is filled in now or noted for later. -/
theorem callMethod_steps {callee : Reference} {method : SymbolId} {s s' : GenState}
    (hmethod : s.table.isMethod method = true)
    (hcall : callMethod s.table callee method s = .ok () s') (waiting : List Label) :
    Draft.Steps s.here ⟨s, waiting⟩ ⟨s', waiting⟩ := by
  unfold callMethod at hcall
  cases hstatic : s.table.isStatic method with
  | true =>
    rw [if_pos hstatic] at hcall
    exact emitCall_steps false hmethod hstatic hcall waiting
  | false =>
    rw [if_neg (by simp [hstatic])] at hcall
    obtain ⟨_, s₁, hreceiver, hcall⟩ := bind_eq_ok_iff.1 hcall
    obtain ⟨hquiet, -⟩ := pushReceiver_emits callee hreceiver
    rw [← hquiet.table] at hmethod hstatic hcall
    exact (wires_pushReceiver callee hreceiver waiting).trans
      (emitCall_steps true hmethod hstatic hcall waiting)

/-- A call leaves no jump waiting if its arguments leave none. -/
theorem Wires.call {callee : Reference} {args : Gen Unit} (hargs : Wires [] args fun _ => []) :
    Wires [] (call callee args) fun _ => [] := by
  refine hargs.bind fun _ => ?_
  refine (wires_bound ..).bind fun method => ?_
  intro s s' found hrun waiting
  obtain ⟨_, _, htable, hrun⟩ := bind_eq_ok_iff.1 hrun
  obtain ⟨rfl, rfl⟩ := table_eq_ok_iff.1 htable
  split at hrun
  next hmethod =>
    obtain ⟨_, s₁, hcall, hrun⟩ := bind_eq_ok_iff.1 hrun
    obtain ⟨-, rfl⟩ := pure_eq_ok_iff.1 hrun
    exact callMethod_steps hmethod hcall waiting
  next => exact absurd hrun throw_ne_ok

section Expressions

variable {code : Gen Value} {left right : Gen Unit} {cond : Bool → Gen Cond}

theorem Wires.pushed (hcode : Wires [] code fun _ => []) : Wires [] (pushed code) fun _ => [] := by
  refine hcode.bind fun value => ?_
  cases value with
  | known word => exact wires_literal word.toInt
  | onStack => exact wires_pure ()

theorem Wires.unlessKnown {site : Site} {expr : Expr} (hcode : Wires [] code fun _ => []) :
    Wires [] (unlessKnown site expr code) fun _ => [] := by
  refine (wires_constantAt site expr).bind fun found => ?_
  cases found with
  | some word => exact wires_pure _
  | none => exact hcode

/-- A condition that is decided already needs no jumps. -/
theorem Wires.unlessDecided {site : Site} {expr : Expr} {code : Gen Cond}
    (hcode : Wires [] code Cond.labels) :
    Wires [] (do
      match ← constantAt site expr with
      | some word => pure (.known word.isTrue)
      | none => code) Cond.labels := by
  refine (wires_constantAt site expr).bind fun found => ?_
  cases found with
  | some word => exact wires_yield Cond.labels (.known word.isTrue)
  | none => exact hcode

/-- The way code ends that computes a value of operands. -/
theorem wires_computed (p : Primitive) (value : Value) :
    Wires [] (emit (·.primitive p) >>= fun _ => pure value) fun _ => [] :=
  (wires_primitive p).bind fun _ => wires_pure value

theorem Wires.unary (op : UnaryOp) (hleft : Wires [] left fun _ => []) :
    Wires [] (unary op left) fun _ => [] := by
  refine hleft.bind fun _ => ?_
  exact wires_computed op.primitive .onStack

theorem Wires.binary (op : BinaryOp) (hleft : Wires [] left fun _ => [])
    (hright : Wires [] right fun _ => []) : Wires [] (binary op left right) fun _ => [] := by
  refine hleft.bind fun _ => ?_
  refine hright.bind fun _ => ?_
  exact wires_computed op.primitive .onStack

/-- The jumps of the condition lead to the second alternative, and the jump after the first
    one to the end. -/
theorem Wires.choose (hleft : Wires [] left fun _ => []) (hright : Wires [] right fun _ => [])
    (cond : Cond) : Wires cond.labels (choose left right cond) fun _ => [] := by
  cases cond with
  | known outcome =>
    cases outcome with
    | true => exact hleft
    | false => exact hright
  | jumps toElse =>
    refine (hleft.frame toElse).bind fun _ => ?_
    refine (wires_jump.frame toElse).bind fun done => ?_
    refine (wires_patchEarlier [done] toElse).bind fun _ => ?_
    refine (hright.frame [done]).bind fun _ => ?_
    exact wires_patch done

theorem Wires.ternary (hcond : Wires [] (cond false) Cond.labels)
    (hleft : Wires [] left fun _ => []) (hright : Wires [] right fun _ => []) :
    Wires [] (ternary cond left right) fun _ => [] := by
  refine hcond.bind fun outcome => ?_
  refine (hleft.choose hright outcome).bind fun _ => ?_
  exact wires_pure Value.onStack

/-- A logical operator leaves no jump waiting: the one over the right operand is filled in. -/
theorem Wires.logical {op : BinaryOp} {leftKnown rightKnown : Gen (Option Word)}
    {left right : Gen Value} (hleftKnown : Wires [] leftKnown fun _ => [])
    (hrightKnown : Wires [] rightKnown fun _ => []) (hleft : Wires [] left fun _ => [])
    (hright : Wires [] right fun _ => []) :
    Wires [] (logical op leftKnown rightKnown left right) fun _ => [] := by
  refine hleftKnown.bind fun found => ?_
  split
  next =>
    split
    next => exact wires_pure _
    next => exact hright
  next =>
    refine hleft.pushed.bind fun _ => ?_
    refine hrightKnown.bind fun found => ?_
    split
    next =>
      split
      next => exact (wires_pop 1).bind fun _ => wires_pure _
      next => exact wires_pure _
    next =>
      refine (wires_jumpIf _).bind fun short => ?_
      refine (hright.pushed.frame [short]).bind fun _ => ?_
      refine (wires_jump.frame [short]).bind fun done => ?_
      refine Wires.bind (wires_patchEarlier [done] [short]) fun _ => ?_
      refine ((wires_literal _).frame [done]).bind fun _ => ?_
      refine (wires_patch done).bind fun _ => ?_
      exact wires_pure _

theorem Wires.element (target : Reference) (hleft : Wires [] left fun _ => []) :
    Wires [] (element target left) fun _ => [] := by
  refine target.push_wires.bind fun _ => ?_
  refine hleft.bind fun _ => ?_
  exact wires_computed .arrayref .onStack

theorem wires_newObject (cls : Ident) : Wires [] (newObject cls) fun _ => [] := by
  refine (wires_bound ..).bind fun x => ?_
  refine (wires_expectSlot x).bind fun size => ?_
  refine (wires_literal (-1)).bind fun _ => ?_
  refine (wires_literal size).bind fun _ => ?_
  exact wires_computed .newobj .onStack

theorem Wires.newArray (hleft : Wires [] left fun _ => []) :
    Wires [] (newArray left) fun _ => [] := by
  refine hleft.bind fun _ => ?_
  exact wires_computed .newarr .onStack

theorem Wires.jumpOn (when : Bool) (hcode : Wires [] code fun _ => []) :
    Wires [] (jumpOn when code) Cond.labels := by
  refine hcode.bind fun value => ?_
  cases value with
  | known word => exact wires_yield Cond.labels (.known word.isTrue)
  | onStack =>
    exact (wires_jumpIf _).bind fun label => wires_yield Cond.labels (.jumps [label])

/-- The jumps of a condition wait, whether they are there already or made now. -/
theorem wires_jumpsOf (when : Bool) (cond : Cond) :
    Wires cond.labels (jumpsOf when cond) id := by
  cases cond with
  | jumps labels => exact wires_yield id labels
  | known outcome =>
    change Wires [] (if outcome = when then _ else _ : Gen (List Label)) id
    split
    next => exact wires_jump.bind fun label => wires_yield id [label]
    next => exact wires_yield id []

/-- The jumps of both operands of a logical operator wait, or the first ones lead behind the second
    operand. -/
theorem Wires.chain {op : BinaryOp} {left right : Bool → Gen Cond}
    (hleft : ∀ when, Wires [] (left when) Cond.labels)
    (hright : ∀ when, Wires [] (right when) Cond.labels) (when : Bool) :
    Wires [] (chain op left right when) Cond.labels := by
  unfold Gen.chain
  split
  next =>
    refine Wires.bind (hleft when) fun cond => ?_
    refine (wires_jumpsOf when cond).bind fun leftJumps => ?_
    refine ((hright when).frame leftJumps).bind fun cond => ?_
    refine ((wires_jumpsOf when cond).frame leftJumps).bind fun rightJumps => ?_
    refine (wires_yield Cond.labels (.jumps (leftJumps ++ rightJumps))).reorder fun label => ?_
    simp [Cond.labels, or_comm]
  next =>
    refine Wires.bind (hleft _) fun cond => ?_
    refine (wires_jumpsOf _ cond).bind fun skip => ?_
    refine ((hright when).frame skip).bind fun cond => ?_
    refine ((wires_jumpsOf when cond).frame skip).bind fun jumps => ?_
    refine (wires_patchEarlier jumps skip).bind fun _ => ?_
    exact wires_yield Cond.labels (.jumps jumps)

end Expressions

end Gen

namespace Expr

variable (site : Site)

mutual

/-- The code of an expression leaves no jump waiting. -/
theorem genValue_wires : (expr : Expr) → Wires [] (expr.genValue site) fun _ => []
  | int _ value => by
    unfold genValue
    exact (wires_pure (.known value)).unlessKnown
  | bool _ value => by
    unfold genValue
    exact (wires_pure (.known (.ofBool value))).unlessKnown
  | null _ => by
    unfold genValue
    exact (wires_pure (.known .null)).unlessKnown
  | unary _ op operand => by
    have hoperand := (genValue_wires operand).pushed
    exact (hoperand.unary op).unlessKnown
  | binary _ op left right => by
    have hleft := genValue_wires left
    have hright := genValue_wires right
    unfold genValue
    refine Wires.unlessKnown ?_
    dsimp only
    split
    next => exact .logical (wires_constantAt site left) (wires_constantAt site right) hleft hright
    next => exact .binary op hleft.pushed hright.pushed
  | ternary _ cond onTrue onFalse => by
    have hTrue := (genValue_wires onTrue).pushed
    have hFalse := (genValue_wires onFalse).pushed
    exact (Wires.ternary (genCond_wires cond false) hTrue hFalse).unlessKnown
  | ref _ target => by
    unfold genValue
    exact (target.push_wires.bind fun _ => wires_pure .onStack).unlessKnown
  | index _ target subscript => by
    have hsubscript := (genValue_wires subscript).pushed
    exact (hsubscript.element target).unlessKnown
  | call _ _ args => by
    have hargs := genArgs_wires args
    unfold genValue
    exact (hargs.call.bind fun _ => wires_pure .onStack).unlessKnown
  | newObject _ cls => (wires_newObject cls).unlessKnown
  | newArray _ _ size => by
    have hsize := (genValue_wires size).pushed
    exact hsize.newArray.unlessKnown

/-- The code of a condition leaves just the jumps waiting that it answers. -/
theorem genCond_wires :
    (expr : Expr) → (when : Bool) → Wires [] (expr.genCond site when) Cond.labels
  | int _ value, _ => by
    unfold genCond
    exact (wires_yield Cond.labels (.known value.isTrue)).unlessDecided
  | bool _ value, _ => by
    unfold genCond
    exact (wires_yield Cond.labels (.known value)).unlessDecided
  | null _, _ => by
    unfold genCond
    exact (wires_yield Cond.labels (.known Word.null.isTrue)).unlessDecided
  | unary _ .not operand, when => by
    have hoperand := genCond_wires operand !when
    unfold genCond
    refine (Wires.map ?_).unlessDecided
    simpa only [Cond.labels_negate] using hoperand
  | unary _ .neg operand, when => by
    have hoperand := (genValue_wires operand).pushed
    unfold genCond
    exact ((hoperand.unary .neg).jumpOn when).unlessDecided
  | binary _ op left right, when => by
    unfold genCond
    refine Wires.unlessDecided ?_
    dsimp only
    split
    next => exact .chain (genCond_wires left) (genCond_wires right) when
    next =>
      have hleft := (genValue_wires left).pushed
      have hright := (genValue_wires right).pushed
      exact (Wires.binary op hleft hright).jumpOn when
  | ternary _ cond onTrue onFalse, when => by
    have hTrue := (genValue_wires onTrue).pushed
    have hFalse := (genValue_wires onFalse).pushed
    unfold genCond
    exact ((Wires.ternary (genCond_wires cond false) hTrue hFalse).jumpOn when).unlessDecided
  | ref _ target, when => by
    unfold genCond
    exact ((target.push_wires.bind fun _ => wires_pure .onStack).jumpOn when).unlessDecided
  | index _ target subscript, when => by
    have hsubscript := (genValue_wires subscript).pushed
    unfold genCond
    exact ((hsubscript.element target).jumpOn when).unlessDecided
  | call _ _ args, when => by
    have hargs := genArgs_wires args
    unfold genCond
    exact ((hargs.call.bind fun _ => wires_pure .onStack).jumpOn when).unlessDecided
  | newObject _ cls, when => by
    unfold genCond
    exact ((wires_newObject cls).jumpOn when).unlessDecided
  | newArray _ _ size, when => by
    have hsize := (genValue_wires size).pushed
    unfold genCond
    exact (hsize.newArray.jumpOn when).unlessDecided

theorem genArgs_wires : (args : List Expr) → Wires [] (genArgs site args) fun _ => []
  | [] => wires_pure ()
  | arg :: rest => (genValue_wires arg).pushed.bind fun _ => genArgs_wires rest

end

theorem genPush_wires (expr : Expr) : Wires [] (expr.genPush site) fun _ => [] :=
  (genValue_wires site expr).pushed

end Expr

namespace Gen

variable {site : Site}

theorem wires_release (mark : Int) : Wires [] (release mark) fun _ => [] := by
  refine wires_get.bind fun _ => ?_
  refine (wires_pop _).bind fun _ => ?_
  exact wires_modify (fun _ => rfl) fun _ => rfl

/-- A declaration leaves no jump waiting. -/
theorem Wires.declare (var : LocalDef) {init : Gen Value} (hinit : Wires [] init fun _ => []) :
    Wires [] (declare var init) fun _ => [] := by
  refine (wires_bound ..).bind fun x => ?_
  refine wires_get.bind fun s => ?_
  refine (wires_setSlot x _).bind fun _ => ?_
  refine Wires.bind (wires_modify (fun _ => rfl) fun _ => rfl) fun _ => ?_
  refine hinit.bind fun value => ?_
  cases value with
  | known word => exact (wires_literal _).bind fun _ => wires_modify (fun _ => rfl) fun _ => rfl
  | onStack => exact wires_modify (fun _ => rfl) fun _ => rfl

/-- What is remembered of a variable has nothing to do with jumps. -/
theorem wires_track (target : Reference) (value : Value) :
    Wires [] (track site target value) fun _ => [] := by
  unfold track
  split
  next => exact wires_pure ()
  next =>
    split
    next => exact wires_modify (fun _ => rfl) fun _ => rfl
    next => exact wires_modify (fun _ => rfl) fun _ => rfl
  next => exact wires_modify (fun _ => rfl) fun _ => rfl

/-- An assignment leaves no jump waiting. -/
theorem Wires.assign (target : Reference) {value : Gen Value} (hvalue : Wires [] value fun _ => []) :
    Wires [] (assign site target value) fun _ => [] := by
  refine target.destination_wires.bind fun destination => ?_
  refine hvalue.bind fun value => ?_
  refine (wires_pure value).pushed.bind fun _ => ?_
  cases destination with
  | register r d =>
    refine (wires_store r d).bind fun _ => ?_
    split
    next => exact wires_track target value
    next => exact wires_pure ()
  | field => exact wires_primitive .fieldupd

/-- An assignment to an array element leaves no jump waiting. -/
theorem Wires.assignElement (target : Reference) {subscript value : Gen Unit}
    (hsubscript : Wires [] subscript fun _ => []) (hvalue : Wires [] value fun _ => []) :
    Wires [] (assignElement target subscript value) fun _ => [] := by
  refine target.push_wires.bind fun _ => ?_
  refine hsubscript.bind fun _ => ?_
  refine hvalue.bind fun _ => ?_
  exact wires_primitive .arrayupd

theorem Wires.callFor (callee : Reference) {args : Gen Unit} (hargs : Wires [] args fun _ => []) :
    Wires [] (callFor callee args) fun _ => [] := by
  refine hargs.call.bind fun method => ?_
  refine wires_table.bind fun table => ?_
  split
  next => exact wires_pop 1
  next => exact wires_pure ()

theorem Wires.returnWith {value : Option (Gen Unit)}
    (hvalue : ∀ code ∈ value, Wires [] code fun _ => []) :
    Wires [] (returnWith site value) fun _ => [] := by
  cases value with
  | some code => exact (hvalue code rfl).bind fun _ => wires_returnWith 1 site.argCount
  | none => exact wires_returnWith 0 site.argCount

/-- A choice leaves no jump waiting: the one over the first branch leads to the second or to the
    end, the one over the second branch to the end. -/
theorem Wires.ifElse {cond : Bool → Gen Cond} {onTrue : Site → Gen Unit}
    {onFalse : Option (Site → Gen Unit)} (hcond : Wires [] (cond false) Cond.labels)
    (hTrue : ∀ site, Wires [] (onTrue site) fun _ => [])
    (hFalse : ∀ code ∈ onFalse, ∀ site, Wires [] (code site) fun _ => []) :
    Wires [] (ifElse site cond onTrue onFalse) fun _ => [] := by
  refine hcond.bind fun outcome => ?_
  cases outcome with
  | known outcome =>
    cases outcome with
    | true => exact hTrue site
    | false =>
      cases onFalse with
      | some code => exact hFalse code rfl site
      | none => exact wires_pure ()
  | jumps toElse =>
    refine ((hTrue site.branch).frame toElse).bind fun _ => ?_
    cases onFalse with
    | none => exact wires_patchAll toElse
    | some code =>
      refine (wires_jump.frame toElse).bind fun done => ?_
      refine (wires_patchEarlier [done] toElse).bind fun _ => ?_
      refine ((hFalse code rfl site.branch).frame [done]).bind fun _ => ?_
      exact wires_patch done

/-- The jumps back lead to the start of the rounds. -/
theorem backTo_steps {start : Nat} {cond : Cond} {s s' : GenState} (hstart : start ≤ s.here)
    (hback : backTo start cond s = .ok () s') (waiting : List Label) :
    Draft.Steps start ⟨s, cond.labels ++ waiting⟩ ⟨s', waiting⟩ := by
  cases cond with
  | known outcome =>
    cases outcome with
    | true =>
      have hemit : emit (·.jumpTo start) s = .ok () s' := hback
      obtain rfl := emit_eq_ok_iff.1 hemit
      exact .single (.jumpTo (Nat.le_refl _) hstart)
    | false =>
      obtain ⟨-, rfl⟩ := pure_eq_ok_iff.1 hback
      exact .refl
  | jumps back =>
    obtain rfl := patchAllTo_eq_ok_iff.1 hback
    exact Draft.Steps.patchAllTo s back waiting (Nat.le_refl _) hstart

/-- The rounds of a loop take the jumps out of it and fill them in with the end. -/
theorem Wires.rounds {line : Nat} {cond : Bool → Gen Cond} {body update : Gen Unit}
    (hcond : Wires [] (cond true) Cond.labels) (hbody : Wires [] body fun _ => [])
    (hupdate : Wires [] update fun _ => []) (exits : List Label) :
    Wires exits (rounds line cond body update exits) fun _ => [] := by
  intro s s' u hrun waiting
  obtain ⟨start, _, hstart, hrun⟩ := bind_eq_ok_iff.1 hrun
  obtain ⟨rfl, rfl⟩ := here_eq_ok_iff.1 hstart
  have htest : Wires [] (do body; update; emit (·.setLine line); cond true) Cond.labels := by
    refine hbody.bind fun _ => ?_
    refine hupdate.bind fun _ => ?_
    refine (wires_setLine line).bind fun _ => ?_
    exact hcond
  obtain ⟨_, s₁, hcode₁, hrun⟩ := bind_eq_ok_iff.1 hrun
  obtain ⟨_, s₂, hcode₂, hrun⟩ := bind_eq_ok_iff.1 hrun
  obtain ⟨_, s₃, hcode₃, hrun⟩ := bind_eq_ok_iff.1 hrun
  obtain ⟨outcome, s₄, hcode₄, hrun⟩ := bind_eq_ok_iff.1 hrun
  obtain ⟨_, s₅, hback, hpatch⟩ := bind_eq_ok_iff.1 hrun
  have hround := htest (bind_eq_ok_iff.2 ⟨_, s₁, hcode₁, bind_eq_ok_iff.2 ⟨_, s₂, hcode₂,
    bind_eq_ok_iff.2 ⟨_, s₃, hcode₃, hcode₄⟩⟩⟩) (exits ++ waiting)
  have hback := backTo_steps hround.here_le hback (exits ++ waiting)
  have hpatch := wires_patchAll exits hpatch waiting
  exact (hround.trans hback).trans
    (hpatch.widen (Nat.le_trans hround.here_le hback.here_le))

/-- A loop leaves no jump waiting. -/
theorem Wires.loop {line : Nat} {cond : Bool → Gen Cond} {body update : Gen Unit}
    (hcond : ∀ when, Wires [] (cond when) Cond.labels) (hbody : Wires [] body fun _ => [])
    (hupdate : Wires [] update fun _ => []) :
    Wires [] (loop line cond body update) fun _ => [] := by
  refine (hcond false).bind fun outcome => ?_
  cases outcome with
  | known outcome =>
    cases outcome with
    | false => exact wires_pure ()
    | true => exact (hcond true).rounds hbody hupdate []
  | jumps exits => exact (hcond true).rounds hbody hupdate exits

end Gen

namespace Stmt

theorem loopCond_wires (site : Site) (cond : Option Expr) (when : Bool) :
    Wires [] (loopCond site cond when) Cond.labels := by
  cases cond with
  | some cond => exact cond.genCond_wires site when
  | none => exact wires_yield Cond.labels (.known true)

mutual

/-- The code of a statement leaves no jump waiting. -/
theorem gen_wires (site : Site) : (stmt : Stmt) → Wires [] (stmt.gen site) fun _ => []
  | block _ stmts => by
    refine (wires_setLine _).bind fun _ => ?_
    refine wires_get.bind fun _ => ?_
    refine (genAll_wires site stmts).bind fun _ => ?_
    exact wires_release _
  | varDecl _ var init => by
    refine (wires_setLine _).bind fun _ => ?_
    exact (init.genValue_wires site).declare var
  | assign _ target value => by
    refine (wires_setLine _).bind fun _ => ?_
    exact (value.genValue_wires site).assign target
  | indexAssign _ target subscript value => by
    have hsubscript := subscript.genPush_wires site
    refine (wires_setLine _).bind fun _ => ?_
    exact hsubscript.assignElement target (value.genPush_wires site)
  | call _ callee args => by
    refine (wires_setLine _).bind fun _ => ?_
    exact (Expr.genArgs_wires site args).callFor callee
  | .return _ value => by
    refine (wires_setLine _).bind fun _ => ?_
    refine Wires.returnWith fun code hmem => ?_
    obtain ⟨expr, -, rfl⟩ := Option.map_eq_some_iff.1 hmem
    exact expr.genPush_wires site
  | ifElse _ cond onTrue none => by
    have hTrue := fun site => gen_wires site onTrue
    refine (wires_setLine _).bind fun _ => ?_
    exact .ifElse (cond.genCond_wires site false) hTrue nofun
  | ifElse _ cond onTrue (some onFalse) => by
    have hTrue := fun site => gen_wires site onTrue
    refine (wires_setLine _).bind fun _ => ?_
    refine .ifElse (cond.genCond_wires site false) hTrue fun code hmem site => ?_
    obtain rfl := Option.some.inj hmem
    exact gen_wires site onFalse
  | .while _ cond body => by
    have hbody := gen_wires site.loop body
    refine (wires_setLine _).bind fun _ => ?_
    exact .loop (cond.genCond_wires site.loop) hbody (wires_pure ())
  | .for _ init cond update body => by
    have hbody := gen_wires site.loop body
    have hupdate := genOption_wires site.loop update
    refine (wires_setLine _).bind fun _ => ?_
    refine wires_get.bind fun _ => ?_
    refine (genOption_wires site init).bind fun _ => ?_
    refine (Wires.loop (loopCond_wires site.loop cond) hbody hupdate).bind fun _ => ?_
    exact wires_release _

theorem genOption_wires (site : Site) :
    (stmt : Option Stmt) → Wires [] (genOption site stmt) fun _ => []
  | none => wires_pure ()
  | some stmt => gen_wires site stmt

theorem genAll_wires (site : Site) :
    (stmts : List Stmt) → Wires [] (genAll site stmts) fun _ => []
  | [] => wires_pure ()
  | stmt :: rest => (gen_wires site stmt).bind fun _ => genAll_wires site rest

end

end Stmt

end SmallJava
