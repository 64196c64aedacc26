import SmallJava.Machine.Instruction

namespace SmallJava

/-- A position in the code store. -/
abbrev Address := Nat

/-- An address as an operand. Operands are signed words of 32 bits, so an address
    beyond their range wraps around. -/
def Address.toOperand (address : Address) : Int := Int.bmod address 0x100000000

theorem Address.toOperand_of_lt {n : Nat} (hlt : n < 0x80000000) : Address.toOperand n = n := by
  unfold toOperand
  rw [Int.bmod_eq_of_le] <;> omega

/-- An instruction together with the source line it was generated for. -/
structure CodeCell where
  instr : Instruction
  line : Nat
  deriving DecidableEq

/-- The code store, from address zero upwards. -/
structure Code where
  cells : Array CodeCell := #[]

namespace Code

def size (code : Code) : Nat := code.cells.size

def isEmpty (code : Code) : Bool := code.cells.isEmpty

/-- The address that the next instruction will get. -/
def nextAddress (code : Code) : Address := code.size

def push (code : Code) (instr : Instruction) (line : Nat) : Code :=
  ⟨code.cells.push ⟨instr, line⟩⟩

def get? (code : Code) (address : Address) : Option Instruction :=
  code.cells[address]?.map (·.instr)

def line? (code : Code) (address : Address) : Option Nat := code.cells[address]?.map (·.line)

def instructions (code : Code) : List Instruction := code.cells.toList.map (·.instr)

/-- Replaces the operand of the instruction at an address, if there is one. -/
def patch? (code : Code) (address : Address) (d : Int) : Option Code :=
  if address < code.size then
    some ⟨code.cells.modify address fun cell => { cell with instr := { cell.instr with d } }⟩
  else none

/-- Replaces the operand of one instruction; an address without one leaves the
    code as it is. -/
def patch (code : Code) (address : Address) (d : Int) : Code :=
  (code.patch? address d).getD code

@[simp]
theorem size_push (code : Code) (instr : Instruction) (line : Nat) :
    (code.push instr line).size = code.size + 1 := by
  simp [push, size]

@[simp]
theorem size_patch (code : Code) (address : Address) (d : Int) :
    (code.patch address d).size = code.size := by
  unfold patch patch?
  split <;> simp [size]

theorem lt_size_of_get? {code : Code} {a : Address} {instr : Instruction}
    (hget : code.get? a = some instr) : a < code.size := by
  obtain ⟨cell, hcell, -⟩ := Option.map_eq_some_iff.1 hget
  exact (Array.getElem?_eq_some_iff.1 hcell).1

theorem get?_push (code : Code) (instr : Instruction) (line : Nat) (query : Address) :
    (code.push instr line).get? query =
      if query = code.nextAddress then some instr else code.get? query := by
  by_cases heq : query = code.nextAddress
  · subst heq
    simp [get?, push, nextAddress, size]
  · have hne : query ≠ code.cells.size := heq
    simp [get?, push, Array.getElem?_push, hne, heq]

/-- Patching changes one operand and nothing else. -/
theorem get?_patch (code : Code) (address query : Address) (d : Int) :
    (code.patch address d).get? query =
      (code.get? query).map fun instr => if query = address then { instr with d } else instr := by
  unfold patch patch?
  split
  next hin =>
    simp only [Option.getD_some, get?, Array.getElem?_modify]
    by_cases heq : address = query
    · simp [heq, Function.comp_def]
    · simp [heq, Ne.symm heq, Function.comp_def]
  next hout =>
    by_cases heq : query = address
    · subst heq
      have hnone : code.cells[query]? = none := Array.getElem?_eq_none (Nat.le_of_not_lt hout)
      simp [get?, hnone]
    · simp [heq]

end Code

end SmallJava
