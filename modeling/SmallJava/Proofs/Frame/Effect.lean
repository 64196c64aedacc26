import SmallJava.Proofs.Codegen.Image
import SmallJava.Proofs.Flow.Control

namespace SmallJava

/-- How many words an instruction takes from the stack, and how many it then puts there. -/
structure StackEffect where
  pops : Int
  pushes : Int
  deriving DecidableEq

/-- What the primitives take and put. Programs use no others. -/
def Primitive.effect? : Primitive → Option StackEffect
  | not | neg | arraylen | newarr => some ⟨1, 1⟩
  | and | or | add | sub | mult | div | mod | lt | le | ge | gt | eq | ne => some ⟨2, 1⟩
  | newobj | arrayref | fieldref => some ⟨2, 1⟩
  | putintnl => some ⟨1, 0⟩
  | arrayupd | fieldupd => some ⟨3, 0⟩
  | _ => none

theorem UnaryOp.effect?_primitive (op : UnaryOp) : op.primitive.effect? = some ⟨1, 1⟩ := by
  cases op <;> rfl

theorem BinaryOp.effect?_primitive (op : BinaryOp) : op.primitive.effect? = some ⟨2, 1⟩ := by
  cases op <;> rfl

/-- A call takes the arguments and the objects it is made on, and puts the result there if
    there is one. -/
def Signature.callEffect (sig : Signature) (objects : Int) (m : SymbolId) : StackEffect where
  pops := (sig.paramsOf m).length + objects
  pushes := if (sig.typeOf m).isVoid then 0 else 1

/-- What an instruction does to the stack by the time the next one runs, given the method
    that starts at each address. -/
def Instruction.effect? (sig : Signature) (methodAt? : Int → Option SymbolId)
    (instr : Instruction) : Option StackEffect :=
  match instr.op, instr.r with
  | .load, _ | .loada, _ | .loadl, _ => some ⟨0, 1⟩
  | .store, _ => some ⟨1, 0⟩
  | .push, _ => some ⟨0, instr.d⟩
  | .pop, _ => some ⟨instr.d, 0⟩
  | .call, .pb => (Primitive.ofCode? instr.d).bind (·.effect?)
  | .call, .cb => (methodAt? instr.d).map (sig.callEffect 0)
  | .calli, .cb => (methodAt? instr.d).map (sig.callEffect 1)
  | .return, _ => some ⟨instr.n, 0⟩
  | .jump, _ | .halt, _ => some ⟨0, 0⟩
  | .jumpif, _ => some ⟨1, 0⟩
  | _, _ => none

/-- What a method is to do with its frame. -/
structure FrameRule where
  methodAt? : Int → Option SymbolId
  results : Int
  args : Int

/-- An instruction with the given effect may run at a height of the frame: it leaves the link
    data alone, uses local variables that are there, and returns as the method is to. -/
structure Instruction.Respects (instr : Instruction) (rule : FrameRule) (effect : StackEffect)
    (height : Int) : Prop where
  enough : linkDataSize + effect.pops ≤ height
  inside : instr.op = .load ∨ instr.op = .store → instr.r = .lb → linkDataSize ≤ instr.d →
    instr.d < height - effect.pops
  returns : instr.op = .return → instr.n = rule.results ∧ instr.d = rule.args

namespace Image

variable (im : Image) (rule : FrameRule)

/-- Control together with the height of the frame, link data included. -/
def frames : Flow Int where
  ok a height next := ∃ instr effect, im.Holds a instr ∧
    instr.effect? im.signature rule.methodAt? = some effect ∧ instr.Respects rule effect height ∧
      ∀ d ∈ instr.successors a, ∃ b : Nat, d = b ∧ next b (height - effect.pops + effect.pushes)
  mono := by
    rintro a height next next' himp ⟨instr, effect, hholds, heffect, hrespects, hnext⟩
    refine ⟨instr, effect, hholds, heffect, hrespects, fun d hmem => ?_⟩
    obtain ⟨b, rfl, hb⟩ := hnext d hmem
    exact ⟨b, rfl, himp b _ hb⟩

variable {im rule} {exits : Nat → Int → Prop} {a t : Nat} {height height' : Int} {instr : Instruction}

open SmallJava.Flow

/-- An instruction that control runs through changes the height by its effect. -/
theorem Holds.moves (hholds : im.Holds a instr) {effect : StackEffect}
    (heffect : instr.effect? im.signature rule.methodAt? = some effect)
    (hnext : instr.successors a = [((a + 1 : Nat) : Int)]) (hrespects : instr.Respects rule effect height)
    (hheight : height' = height - effect.pops + effect.pushes) :
    (im.frames rule).Through a (a + 1) exits a height (a + 1) height' := by
  refine .step ⟨instr, effect, hholds, heffect, hrespects, fun d hmem => ?_⟩
  rw [hnext] at hmem
  obtain rfl := List.mem_singleton.1 hmem
  rw [← hheight]
  exact ⟨a + 1, rfl, also_self⟩

/-- The same for one that has nothing to do with local variables or returning. -/
theorem Holds.shifts (hholds : im.Holds a instr) {effect : StackEffect}
    (heffect : instr.effect? im.signature rule.methodAt? = some effect)
    (hnext : instr.successors a = [((a + 1 : Nat) : Int)])
    (hplain : instr.r ≠ .lb) (hreturn : instr.op ≠ .return)
    (henough : linkDataSize + effect.pops ≤ height)
    (hheight : height' = height - effect.pops + effect.pushes) :
    (im.frames rule).Through a (a + 1) exits a height (a + 1) height' :=
  hholds.moves heffect hnext
    ⟨henough, fun _ hbase => absurd hbase hplain, fun hop => absurd hop hreturn⟩ hheight

/-- A primitive changes the height of the frame by what it takes and puts. -/
theorem Holds.primitiveShifts {p : Primitive} (hholds : im.Holds a (.primitive p))
    {effect : StackEffect} (heffect : p.effect? = some effect)
    (henough : linkDataSize + effect.pops ≤ height)
    (hheight : height' = height - effect.pops + effect.pushes) :
    (im.frames rule).Through a (a + 1) exits a height (a + 1) height' := by
  refine hholds.shifts ?_ rfl nofun nofun henough hheight
  have hcode : Primitive.ofCode? ((p.code : Nat) : Int) = some p := Primitive.ofCode?_code p
  unfold Instruction.effect?
  simp [Instruction.primitive, hcode, heffect]

/-- A primitive with one operand and one result leaves the height as it is. -/
theorem Holds.replaces {p : Primitive} (hholds : im.Holds a (.primitive p))
    (heffect : p.effect? = some ⟨1, 1⟩) (hbase : linkDataSize ≤ height) :
    (im.frames rule).Through a (a + 1) exits a (height + 1) (a + 1) (height + 1) := by
  refine hholds.primitiveShifts heffect ?_ ?_
  · dsimp only
    omega
  · dsimp only
    omega

/-- A primitive with two operands and one result lowers the height by one. -/
theorem Holds.combines {p : Primitive} (hholds : im.Holds a (.primitive p))
    (heffect : p.effect? = some ⟨2, 1⟩) (hbase : linkDataSize ≤ height) :
    (im.frames rule).Through a (a + 1) exits a (height + 1 + 1) (a + 1) (height + 1) := by
  refine hholds.primitiveShifts heffect ?_ ?_
  · dsimp only
    omega
  · dsimp only
    omega

/-- A primitive with three operands and no result lowers the height by three. -/
theorem Holds.updates {p : Primitive} (hholds : im.Holds a (.primitive p))
    (heffect : p.effect? = some ⟨3, 0⟩) (hbase : linkDataSize ≤ height)
    (hheight : height' = height + 3) :
    (im.frames rule).Through a (a + 1) exits a height' (a + 1) height := by
  refine hholds.primitiveShifts heffect ?_ ?_
  · dsimp only
    omega
  · dsimp only
    omega

theorem Holds.loads {r : Register} {d : Int} (hholds : im.Holds a (.load r d))
    (hbase : linkDataSize ≤ height) (hd : r = .lb → d < height) :
    (im.frames rule).Through a (a + 1) exits a height (a + 1) (height + 1) := by
  refine hholds.moves rfl rfl ⟨by simpa using hbase, fun _ hr _ => ?_, nofun⟩ (by simp)
  simpa [Instruction.load] using hd hr

theorem Holds.loadsAddress {r : Register} {d : Int} (hholds : im.Holds a (.loadAddress r d))
    (hbase : linkDataSize ≤ height) :
    (im.frames rule).Through a (a + 1) exits a height (a + 1) (height + 1) := by
  refine hholds.moves rfl rfl ⟨by simpa using hbase, ?_, nofun⟩ (by simp)
  rintro (hop | hop) <;> cases hop

theorem Holds.loadsLiteral {value : Int} (hholds : im.Holds a (.literal value))
    (hbase : linkDataSize ≤ height) :
    (im.frames rule).Through a (a + 1) exits a height (a + 1) (height + 1) :=
  hholds.shifts rfl rfl nofun nofun (by simpa using hbase) (by simp)

theorem Holds.stores {r : Register} {d : Int} (hholds : im.Holds a (.store r d))
    (hbase : linkDataSize ≤ height) (hd : r = .lb → d < height) :
    (im.frames rule).Through a (a + 1) exits a (height + 1) (a + 1) height := by
  refine hholds.moves rfl rfl ⟨by simpa using hbase, fun _ hr _ => ?_, nofun⟩ (by simp)
  simpa [Instruction.store] using hd hr

/-- POP lowers the height by its count. -/
theorem Holds.drops {count : Int} (hholds : im.Holds a (.pop count))
    (hbase : linkDataSize ≤ height) (hheight : height' = height + count) :
    (im.frames rule).Through a (a + 1) exits a height' (a + 1) height := by
  have heffect : (Instruction.pop count).effect? im.signature rule.methodAt? = some ⟨count, 0⟩ := rfl
  refine hholds.shifts heffect rfl nofun nofun ?_ ?_
  · dsimp only
    omega
  · dsimp only
    omega

theorem Holds.skips (hholds : im.Holds a (.jump t)) (htarget : t < 0x80000000)
    (hbase : linkDataSize ≤ height) (hexit : exits t height) :
    (im.frames rule).Stays a (a + 1) exits a height := by
  refine .one ⟨_, ⟨0, 0⟩, hholds, rfl, ⟨by simpa using hbase, ?_, nofun⟩, fun d hmem => ?_⟩
  · rintro (hop | hop) <;> cases hop
  · rw [Instruction.successors_jump htarget, List.mem_singleton] at hmem
    exact ⟨t, hmem, by simpa using hexit⟩

theorem Holds.skipsTo (hholds : im.Holds a (.jump t)) (htarget : t < 0x80000000)
    (hbase : linkDataSize ≤ height) :
    (im.frames rule).Through a (a + 1) exits a height t height :=
  ⟨Nat.le_succ a, .inr (hholds.skips htarget hbase also_self)⟩

/-- A conditional jump takes the outcome from the stack, whether it jumps or not. -/
theorem Holds.tests {value : Int} (hholds : im.Holds a (.jumpIf value t))
    (htarget : t < 0x80000000) (hbase : linkDataSize ≤ height) (hexit : exits t height) :
    (im.frames rule).Through a (a + 1) exits a (height + 1) (a + 1) height := by
  refine .step ⟨_, ⟨1, 0⟩, hholds, rfl, ⟨?_, ?_, nofun⟩, fun d hmem => ?_⟩
  · dsimp only
    omega
  · rintro (hop | hop) <;> cases hop
  · simp only [Instruction.successors_jumpIf htarget, List.mem_cons, List.not_mem_nil, or_false] at hmem
    have hsame : height + 1 - 1 + 0 = height := by omega
    rw [hsame]
    obtain rfl | rfl := hmem
    · exact ⟨t, rfl, also_of hexit⟩
    · exact ⟨a + 1, rfl, also_self⟩

/-- A method may return from where its result is on top. -/
theorem Holds.ends (hholds : im.Holds a (.returnWith rule.results rule.args))
    (hbase : linkDataSize + rule.results ≤ height) : (im.frames rule).Stays a (a + 1) exits a height := by
  refine .one ⟨_, ⟨rule.results, 0⟩, hholds, rfl, ⟨hbase, ?_, fun _ => ⟨rfl, rfl⟩⟩, fun d hmem => ?_⟩
  · rintro (hop | hop) <;> cases hop
  · cases hmem

end Image

end SmallJava
