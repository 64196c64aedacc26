import SmallJava.Machine.Opcode

namespace SmallJava

/-- An instruction: an operation, a count, a base register and an operand. Counts and
    operands are meant to fit signed words of 32 bits. Only addresses can outgrow them
    (`Address.toOperand`): literals are words, and all other operands count what one
    frame, one object or the static data hold, which is taken to be less than 2^31. -/
structure Instruction where
  op : Opcode
  n : Int
  r : Register
  d : Int
  deriving DecidableEq

namespace Instruction

/-- The operand of a jump or call whose target is not known yet. -/
def unresolved : Int := -1

/-- The primitive that the instruction calls, if it calls one. -/
def primitive? (instr : Instruction) : Option Primitive :=
  if instr.op = .call ∧ instr.r = .pb then Primitive.ofCode? instr.d else none

/-- Whether the instruction still waits for its target. -/
def isUnresolved (instr : Instruction) : Bool :=
  (match instr.op with
    | .jump | .jumpif | .call | .calli => true
    | _ => false) && instr.r == .cb && instr.d == unresolved

/-- The instruction in assembly notation. Primitives are called by name, and
    operands that the operation does not use are left out. -/
def render (instr : Instruction) : String :=
  match instr.primitive? with
  | some primitive => s!"CALL {primitive}"
  | none =>
    match instr.op with
    | .load | .loada | .store | .call | .calli | .jump => s!"{instr.op} {instr.d}[{instr.r}]"
    | .jumpif => s!"{instr.op} ({instr.n}) {instr.d}[{instr.r}]"
    | .return => s!"{instr.op} ({instr.n}) {instr.d}"
    | .loadl | .push | .pop => s!"{instr.op} {instr.d}"
    | .loadi | .storei | .calld | .jumpi | .halt => s!"{instr.op}"

instance : ToString Instruction := ⟨render⟩

end Instruction

end SmallJava
