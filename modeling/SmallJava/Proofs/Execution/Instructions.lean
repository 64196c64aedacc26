import SmallJava.Proofs.Execution.Activation

namespace SmallJava

open Machine Exec

namespace Machine

variable {m : Machine}

theorem step_of_fetch {fetch : Address → Option Instruction} {instr : Instruction}
    (hfetch : fetch m.cp = some instr) :
    step fetch m = execute instr { m with cp := m.cp + 1 } := by
  rw [step, bind_of_ok (get_eq_ok_iff.2 ⟨rfl, rfl⟩), hfetch]
  rfl

theorem pop_concat (words : List Datum) (d : Datum) :
    pop { m with stack := words ++ [d] } = .ok d { m with stack := words } := by
  rw [pop, bind_of_ok (get_eq_ok_iff.2 ⟨rfl, rfl⟩), List.getLast?_concat]
  change EStateM.Result.ok d { m with stack := (words ++ [d]).dropLast } = _
  rw [List.dropLast_concat]

/-- Popping as many words as were pushed leaves the stack from before. -/
theorem popMany_append (words : List Datum) {dropped : List Datum} {count : Nat}
    (hlength : dropped.length = count) :
    popMany count { m with stack := words ++ dropped } = .ok () { m with stack := words } := by
  induction count generalizing dropped with
  | zero =>
    obtain rfl := List.eq_nil_of_length_eq_zero hlength
    rw [List.append_nil]
    rfl
  | succ count ih =>
    obtain rfl | ⟨front, last, rfl⟩ := List.eq_nil_or_concat dropped
    · cases hlength
    · rw [List.concat_eq_append, ← List.append_assoc]
      exact (bind_of_ok (pop_concat _ _)).trans (ih (by simpa using hlength))

theorem read_number {n : Nat} {d : Datum} (hget : m.stack[n]? = some d) :
    read (.number n) m = .ok d m := by
  rw [read, bind_of_ok (get_eq_ok_iff.2 ⟨rfl, rfl⟩)]
  simp only [at?_natCast, hget]
  rfl

theorem write_number {n : Nat} (hlt : n < m.stack.length) (d : Datum) :
    write (.number n) d m = .ok () { m with stack := m.stack.set n d } :=
  bind_of_ok (read_number (List.getElem?_eq_getElem hlt))

theorem execute_jump (target : Int) :
    execute ⟨.jump, 0, .cb, target⟩ = (do jump target; pure true : Action Bool) := rfl

theorem execute_jumpIf (value target : Int) :
    execute ⟨.jumpif, value, .cb, target⟩ = (do
      let d ← pop
      if d = .number value then jump target
      pure true : Action Bool) := rfl

theorem jump_natCast (target : Nat) : jump target m = .ok () { m with cp := target } := by
  unfold jump
  rw [if_neg (by omega)]
  rfl

theorem jump_toOperand {target : Address} (hlt : target < 0x80000000) :
    jump target.toOperand m = .ok () { m with cp := target } := by
  rw [Address.toOperand_of_lt hlt]
  exact jump_natCast target

theorem execute_primitive (p : Primitive) :
    execute (.primitive p) m = (do primitive p; pure true : Action Bool) m := by
  unfold execute Instruction.primitive
  dsimp only
  rw [if_pos rfl, Primitive.ofCode?_code]

end Machine

theorem Activation.pop_machine {act : Activation} {locals : List SymbolId} {env : Valuation}
    {S : Store} {temps : List Datum} {a : Address} {d : Datum} :
    pop (act.machine locals env S (temps ++ [d]) a) = .ok d (act.machine locals env S temps a) := by
  unfold machine
  rw [← List.append_assoc]
  exact pop_concat (m := act.machine locals env S temps a) _ _

namespace Image

variable {im : Image} {act : Activation} {locals : List SymbolId} {env env' : Valuation}
  {S S' : Store} {temps : List Datum} {a : Nat} {t : Nat} {x : SymbolId} {next d : Int}

theorem Holds.step_machine {instr : Instruction} (h : im.Holds a instr) :
    step im.fetch (act.machine locals env S temps a) =
      execute instr (act.machine locals env S temps (a + 1)) :=
  step_of_fetch h

theorem Holds.reach_literal {value : Int} (h : im.Holds a (.literal value)) :
    Reaches im.fetch t (act.machine locals env S temps a) (t + 1)
      (act.machine locals env S (temps ++ [.number value]) (a + 1)) := by
  refine .one (h.step_machine.trans ?_)
  unfold Activation.machine
  rw [← List.append_assoc]
  rfl

/-- The address of the object itself is pushed. -/
theorem Holds.reach_loadAddress (h : im.Holds a (.loadAddress .ob 0)) :
    Reaches im.fetch t (act.machine locals env S temps a) (t + 1)
      (act.machine locals env S (temps ++ [act.ob]) (a + 1)) := by
  have hsame : act.ob.offset 0 = act.ob := by
    cases act.ob <;> simp [Datum.offset]
  refine .one (h.step_machine.trans ?_)
  have hexecute : execute (.loadAddress .ob 0) (act.machine locals env S temps (a + 1)) =
      .ok true (act.machine locals env S (temps ++ [act.ob.offset 0]) (a + 1)) := by
    unfold Activation.machine
    rw [← List.append_assoc]
    rfl
  rw [hexecute, hsame]

/-- A word of the stack is loaded. -/
theorem Holds.reach_load {r : Register} {start : Int} {n : Nat} {v : Datum} (h : im.Holds a (.load r d))
    (hbase : ∀ m : Machine, m.lb = act.lb → base r m = .ok (.number start) m)
    (hplace : start + d = n) (hget : (act.words locals env S)[n]? = some v) :
    Reaches im.fetch t (act.machine locals env S temps a) (t + 1)
      (act.machine locals env S (temps ++ [v]) (a + 1)) := by
  refine .one (h.step_machine.trans ?_)
  have hread : read ((Datum.number start).offset d) (act.machine locals env S temps (a + 1)) =
      .ok v (act.machine locals env S temps (a + 1)) := by
    have hlt := (List.getElem?_eq_some_iff.1 hget).1
    rw [Datum.offset, hplace]
    exact read_number ((List.getElem?_append_left hlt).trans hget)
  change (do push (← read ((← base r).offset d)); pure true : Action Bool) _ = _
  rw [bind_of_ok (hbase _ rfl), bind_of_ok hread]
  unfold Activation.machine
  rw [← List.append_assoc]
  rfl

variable (temps) in
/-- A word is stored on the stack, so that a variable or static field has another value. -/
theorem Holds.reach_store {r : Register} {start : Int} {n : Nat} {v : Datum} (h : im.Holds a (.store r d))
    (hbase : ∀ m : Machine, m.lb = act.lb → base r m = .ok (.number start) m)
    (hplace : start + d = n) (hlt : n < (act.words locals env S).length)
    (hwords : act.words locals env' S' = (act.words locals env S).set n v)
    (hheap : S'.heap = S.heap) (hprinted : S'.output = S.output) :
    Reaches im.fetch t (act.machine locals env S (temps ++ [v]) a) (t + 1)
      (act.machine locals env' S' temps (a + 1)) := by
  refine .one (h.step_machine.trans ?_)
  have hwrite : write ((Datum.number start).offset d) v (act.machine locals env S temps (a + 1)) =
      .ok () (act.machine locals env' S' temps (a + 1)) := by
    rw [Datum.offset, hplace, write_number (by simp [Activation.machine]; omega)]
    simp only [Activation.machine, List.set_append_left _ _ hlt, ← hwords, hheap, hprinted]
  change (do
    let v ← pop
    write ((← base r).offset d) v
    pure true : Action Bool) _ = _
  rw [bind_of_ok Activation.pop_machine, bind_of_ok (hbase _ rfl), bind_of_ok hwrite]
  rfl

/-- POP drops words from the top of the stack. -/
theorem Holds.reach_pop {count : Int} {dropped : List Datum} (h : im.Holds a (.pop count))
    (hlength : dropped.length = count) :
    Reaches im.fetch t (act.machine locals env S (temps ++ dropped) a) (t + 1)
      (act.machine locals env S temps (a + 1)) := by
  refine .one (h.step_machine.trans ?_)
  have hpop : popMany count.toNat (act.machine locals env S (temps ++ dropped) (a + 1)) =
      .ok () (act.machine locals env S temps (a + 1)) := by
    unfold Activation.machine
    rw [← List.append_assoc]
    exact popMany_append (m := act.machine locals env S temps (a + 1)) _ (by omega)
  exact bind_of_ok hpop

/-- A jump goes to its target, if this is an address. -/
theorem Holds.reach_jump {target : Address} (h : im.Holds a (.jump target))
    (hfits : target < 0x80000000) :
    Reaches im.fetch t (act.machine locals env S temps a) (t + 1)
      (act.machine locals env S temps target) := by
  refine .one (h.step_machine.trans ?_)
  rw [Instruction.jump, execute_jump]
  exact bind_of_ok (jump_toOperand hfits)

/-- A jump on a truth value. -/
theorem Holds.reach_jumpIf {target : Address} {b when : Bool}
    (h : im.Holds a (.jumpIf (Word.ofBool when).toInt target)) (hfits : target < 0x80000000) :
    Reaches im.fetch t (act.machine locals env S (temps ++ [.ofBool b]) a) (t + 1)
      (act.machine locals env S temps (if b = when then target else a + 1)) := by
  refine .one (h.step_machine.trans ?_)
  rw [Instruction.jumpIf, execute_jumpIf, bind_of_ok Activation.pop_machine]
  have htest : Datum.ofBool b = .number (Word.ofBool when).toInt ↔ b = when := by
    cases b <;> cases when <;> decide
  by_cases heq : b = when
  · rw [if_pos (htest.2 heq), if_pos heq]
    exact bind_of_ok (jump_toOperand hfits)
  · rw [if_neg (mt htest.1 heq), if_neg heq]
    rfl

section Mirrored

variable {α : Type} {p : Primitive} {x : Exec α} {y : Action α} {operands : List Datum}
  {results : α → List Datum} {deadline : Nat} {v w : Datum}

/-- An instruction that mirrors an evaluation of its operands leaves the outcome in their
    place. -/
theorem follows_of_mirrors (hmirrors : Mirrors x y) {g : α → Action Unit}
    (hleaves : ∀ v m, g v m = .ok () { m with stack := m.stack ++ results v })
    (hstep : step im.fetch (act.machine locals env S (temps ++ operands) a) =
      (do g (← y); pure true : Action Bool) (act.machine locals env S temps (a + 1))) :
    Follows im.fetch deadline t (act.machine locals env S (temps ++ operands) a) (x S)
      fun v S' _ m' => m' = act.machine locals env S' (temps ++ results v) (a + 1) := by
  have hresult := hmirrors S (act.machine locals env S temps (a + 1)) rfl
  cases hrun : x S with
  | ok v S' =>
    rw [hrun] at hresult
    obtain ⟨hstatics, hprinted, hy⟩ := hresult
    rw [bind_of_ok hy, bind_of_ok (hleaves v _)] at hstep
    refine ⟨t + 1, _, .one hstep, ?_⟩
    simp [Activation.machine, Activation.words, hstatics, hprinted]
  | error stop S' =>
    rw [hrun] at hresult
    cases stop with
    | fault found =>
      obtain ⟨hprinted, m', hsame, hy⟩ := hresult
      rw [bind_of_error hy] at hstep
      exact ⟨t, _, m', .refl, hstep, hsame.trans hprinted.symm⟩
    | timeout => exact hresult.elim
    | stuck => trivial

/-- A step at a primitive is what the primitive does to its operands, and goes on behind it. -/
theorem Holds.step_primitive (h : im.Holds a (.primitive p)) {y : Action Unit}
    (hprimitive : primitive p (act.machine locals env S (temps ++ operands) (a + 1)) =
      y (act.machine locals env S temps (a + 1))) :
    step im.fetch (act.machine locals env S (temps ++ operands) a) =
      (do y; pure true : Action Bool) (act.machine locals env S temps (a + 1)) := by
  rw [h.step_machine, execute_primitive]
  cases hrun : y (act.machine locals env S temps (a + 1)) with
  | ok _ m => rw [bind_of_ok (hprimitive.trans hrun), bind_of_ok hrun]
  | error fault m => rw [bind_of_error (hprimitive.trans hrun), bind_of_error hrun]

/-- A primitive that pushes one result follows an evaluation that it mirrors. -/
theorem Holds.follows_push (h : im.Holds a (.primitive p)) {x : Exec Datum} {y : Action Datum}
    (hmirrors : Mirrors x y)
    (hprimitive : primitive p (act.machine locals env S (temps ++ operands) (a + 1)) =
      (do push (← y) : Action Unit) (act.machine locals env S temps (a + 1))) :
    Follows im.fetch deadline t (act.machine locals env S (temps ++ operands) a) (x S)
      fun v S' _ m' => m' = act.machine locals env S' (temps ++ [v]) (a + 1) := by
  refine follows_of_mirrors (g := push) hmirrors (fun _ _ => rfl)
    ((h.step_primitive hprimitive).trans ?_)
  rw [bind_assoc]

/-- The primitive of a unary operator follows the operator. -/
theorem Holds.follows_unary {op : UnaryOp} (h : im.Holds a (.primitive op.primitive)) :
    Follows im.fetch deadline t (act.machine locals env S (temps ++ [v]) a) (op.apply v S)
      fun d S' _ m' => m' = act.machine locals env S' (temps ++ [d]) (a + 1) := by
  cases op with
  | not => exact h.follows_push (.pure _) (bind_of_ok Activation.pop_machine)
  | neg =>
    cases hword : v.word? with
    | some word =>
      refine h.follows_push (y := pure (.ofWord (-word))) ?_ ?_
      · rw [UnaryOp.apply, hword]
        exact .pure _
      · refine (bind_of_ok Activation.pop_machine).trans ?_
        rw [hword]
        rfl
    | none =>
      rw [UnaryOp.apply, hword]
      exact .stuck

/-- The result of the primitive of a binary operator. -/
def applied (op : BinaryOp) (v w : Datum) : Action Datum :=
  match op.primitive.compute v w with
  | .ok d => pure d
  | .error fault => throw fault

/-- What the primitive of an operator computes mirrors the operator, faults included. -/
theorem mirrors_applied {op : BinaryOp} (hfamily : op.isLogical = false) :
    Mirrors (op.apply v w) (applied op v w) := by
  cases op with
  | or | and => cases hfamily
  | eq | ne => exact .pure _
  | lt | le | gt | ge | add | sub | mul =>
    simp only [applied, BinaryOp.apply, BinaryOp.primitive, Primitive.compute, BinaryOp.eval?]
    cases v.word? <;> cases w.word? <;> first | exact .stuck | exact .pure _
  | div | mod =>
    simp only [applied, BinaryOp.apply, BinaryOp.primitive, Primitive.compute, BinaryOp.eval?]
    cases v.word? with
    | none => exact .stuck
    | some a =>
      cases w.word? with
      | none => exact .stuck
      | some b =>
        by_cases hzero : b = 0
        · simp only [if_pos hzero]
          exact .fault _
        · simp only [if_neg hzero]
          exact .pure _

/-- The primitive of a binary operator follows the operator. -/
theorem Holds.follows_binary {op : BinaryOp} (h : im.Holds a (.primitive op.primitive))
    (hfamily : op.isLogical = false) :
    Follows im.fetch deadline t (act.machine locals env S (temps ++ [v] ++ [w]) a) (op.apply v w S)
      fun d S' _ m' => m' = act.machine locals env S' (temps ++ [d]) (a + 1) := by
  rw [List.append_assoc]
  refine h.follows_push (mirrors_applied hfamily) ?_
  rw [← List.append_assoc]
  have hprimitive : primitive op.primitive = (do
      let w ← pop
      let v ← pop
      match op.primitive.compute v w with
      | .ok d => push d
      | .error fault => throw fault) := by
    cases op <;> rfl
  rw [hprimitive, bind_of_ok Activation.pop_machine, bind_of_ok Activation.pop_machine]
  unfold applied
  cases op.primitive.compute v w <;> rfl

theorem Holds.follows_arraylen (h : im.Holds a (.primitive .arraylen)) :
    Follows im.fetch deadline t (act.machine locals env S (temps ++ [v]) a) (Exec.length v S)
      fun d S' _ m' => m' = act.machine locals env S' (temps ++ [d]) (a + 1) :=
  h.follows_push ((Mirrors.object v).bind fun _ => .load _)
    ((bind_of_ok Activation.pop_machine).trans (by rw [bind_assoc]))

theorem Holds.follows_arrayref (h : im.Holds a (.primitive .arrayref)) :
    Follows im.fetch deadline t (act.machine locals env S (temps ++ [v] ++ [w]) a)
      ((do Exec.load (← Exec.element v w)) S)
      fun d S' _ m' => m' = act.machine locals env S' (temps ++ [d]) (a + 1) := by
  rw [List.append_assoc]
  refine h.follows_push ((Mirrors.element v w).bind fun _ => .load _) ?_
  rw [← List.append_assoc, bind_assoc]
  exact (bind_of_ok Activation.pop_machine).trans (bind_of_ok Activation.pop_machine)

theorem Holds.follows_fieldref (h : im.Holds a (.primitive .fieldref)) :
    Follows im.fetch deadline t (act.machine locals env S (temps ++ [v] ++ [.number d]) a)
      ((do Exec.load ((← Exec.object v).offset d)) S)
      fun d S' _ m' => m' = act.machine locals env S' (temps ++ [d]) (a + 1) := by
  rw [List.append_assoc]
  refine h.follows_push ((Mirrors.object v).bind fun _ => .load _) ?_
  rw [← List.append_assoc, bind_assoc]
  exact (bind_of_ok Activation.pop_machine).trans (bind_of_ok Activation.pop_machine)

/-- The primitive for a new array follows its allocation, a negative size being a fault. -/
theorem Holds.follows_newArray (h : im.Holds a (.primitive .newarr)) :
    Follows im.fetch deadline t (act.machine locals env S (temps ++ [v]) a) (Exec.newArray v S)
      fun d S' _ m' => m' = act.machine locals env S' (temps ++ [d]) (a + 1) := by
  cases v with
  | heap => trivial
  | number count =>
    refine h.follows_push (y := if count < 0 then throw .negativeArraySize
      else Machine.alloc [.number count] count) ?_ ((bind_of_ok Activation.pop_machine).trans ?_)
    · unfold Exec.newArray
      dsimp only
      split
      next => exact .fault _
      next => exact .alloc _ _
    · dsimp only
      split <;> rfl

/-- The primitive for a new object follows its allocation. -/
theorem Holds.follows_newObject {fields : Nat} (h : im.Holds a (.primitive .newobj)) :
    Follows im.fetch deadline t
      (act.machine locals env S (temps ++ [.number (-1)] ++ [.number fields]) a)
      (Exec.newObject fields S)
      fun d S' _ m' => m' = act.machine locals env S' (temps ++ [d]) (a + 1) := by
  rw [List.append_assoc]
  refine h.follows_push (.alloc [.number (-1), .number fields] fields) ?_
  rw [← List.append_assoc]
  exact (bind_of_ok Activation.pop_machine).trans (bind_of_ok Activation.pop_machine)

/-- A field of the current object is loaded. -/
theorem Holds.follows_load (h : im.Holds a (.load .ob d)) :
    Follows im.fetch deadline t (act.machine locals env S temps a)
      (Exec.load (act.ob.offset d) S)
      fun d S' _ m' => m' = act.machine locals env S' (temps ++ [d]) (a + 1) := by
  have hstep : step im.fetch (act.machine locals env S (temps ++ []) a) =
      (do push (← Machine.read (act.ob.offset d)); pure true : Action Bool)
        (act.machine locals env S temps (a + 1)) := by
    rw [List.append_nil]
    exact h.step_machine
  have hfollows : Follows im.fetch deadline t (act.machine locals env S (temps ++ []) a)
      (Exec.load (act.ob.offset d) S)
      fun d S' _ m' => m' = act.machine locals env S' (temps ++ [d]) (a + 1) :=
    follows_of_mirrors (.load (act.ob.offset d)) (fun _ _ => rfl) hstep
  rwa [List.append_nil] at hfollows

/-- An instruction that mirrors a change takes its operands away. -/
theorem follows_change {x : Exec Unit} {y : Action Unit} (hmirrors : Mirrors x y)
    (hstep : step im.fetch (act.machine locals env S (temps ++ operands) a) =
      (do y; pure true : Action Bool) (act.machine locals env S temps (a + 1))) :
    Follows im.fetch deadline t (act.machine locals env S (temps ++ operands) a) (x S)
      fun _ S' _ m' => m' = act.machine locals env S' temps (a + 1) := by
  have hfollows : Follows im.fetch deadline t (act.machine locals env S (temps ++ operands) a) (x S)
      fun _ S' _ m' => m' = act.machine locals env S' (temps ++ []) (a + 1) :=
    follows_of_mirrors (g := pure) hmirrors (fun _ _ => by rw [List.append_nil]; rfl) hstep
  rwa [List.append_nil] at hfollows

variable (temps) in
/-- A field of the current object is stored. -/
theorem Holds.follows_store (h : im.Holds a (.store .ob d)) :
    Follows im.fetch deadline t (act.machine locals env S (temps ++ [v]) a)
      (Exec.store (act.ob.offset d) v S)
      fun _ S' _ m' => m' = act.machine locals env S' temps (a + 1) :=
  follows_change (.store _ v) (h.step_machine.trans (bind_of_ok Activation.pop_machine))

variable (temps) in
/-- The primitive for a field update follows the change of the heap and consumes all operands. -/
theorem Holds.follows_fieldupd (h : im.Holds a (.primitive .fieldupd)) :
    Follows im.fetch deadline t (act.machine locals env S (temps ++ [v] ++ [.number d] ++ [w]) a)
      ((do Exec.store ((← Exec.object v).offset d) w) S)
      fun _ S' _ m' => m' = act.machine locals env S' temps (a + 1) := by
  rw [List.append_assoc, List.append_assoc]
  refine follows_change ((Mirrors.object v).bind fun owner => .store (owner.offset d) w)
    (h.step_primitive ?_)
  rw [← List.append_assoc, ← List.append_assoc]
  exact (bind_of_ok Activation.pop_machine).trans ((bind_of_ok Activation.pop_machine).trans
    (bind_of_ok Activation.pop_machine))

/-- The primitive for an array update follows the change of the heap and consumes all operands. -/
theorem Holds.follows_arrayupd {index : Datum} (h : im.Holds a (.primitive .arrayupd)) :
    Follows im.fetch deadline t (act.machine locals env S (temps ++ [v] ++ [index] ++ [w]) a)
      ((do Exec.store (← Exec.element v index) w) S)
      fun _ S' _ m' => m' = act.machine locals env S' temps (a + 1) := by
  rw [List.append_assoc, List.append_assoc]
  refine follows_change ((Mirrors.element v index).bind fun place => .store place w)
    (h.step_primitive ?_)
  rw [← List.append_assoc, ← List.append_assoc]
  exact (bind_of_ok Activation.pop_machine).trans ((bind_of_ok Activation.pop_machine).trans
    (bind_of_ok Activation.pop_machine))

end Mirrored

end Image

end SmallJava
