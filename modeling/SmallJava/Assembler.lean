import SmallJava.Machine.Executable
import SmallJava.Symbol.Table

namespace SmallJava

/-- Where a jump stands that waits for its target. -/
structure Label where
  address : Address
  deriving DecidableEq

/-- Code under construction. Every instruction is recorded for the current
    source line; calls to code that does not exist yet are noted for later. -/
structure Assembler where
  code : Code := {}
  relocations : List Relocation := []
  line : Nat := 0

namespace Assembler

def setLine (asm : Assembler) (line : Nat) : Assembler := { asm with line }

def here (asm : Assembler) : Address := asm.code.nextAddress

def emit (asm : Assembler) (op : Opcode) (n : Int) (r : Register) (d : Int) : Assembler :=
  { asm with code := asm.code.push ⟨op, n, r, d⟩ asm.line }

def primitive (asm : Assembler) (primitive : Primitive) : Assembler :=
  asm.emit .call 0 .pb primitive.code

def literal (asm : Assembler) (value : Int) : Assembler := asm.emit .loadl 0 .zr value

def load (asm : Assembler) (r : Register) (d : Int) : Assembler := asm.emit .load 0 r d

def loadAddress (asm : Assembler) (r : Register) (d : Int) : Assembler := asm.emit .loada 0 r d

def store (asm : Assembler) (r : Register) (d : Int) : Assembler := asm.emit .store 0 r d

/-- Reserves words on the stack; nothing is emitted for none. -/
def push (asm : Assembler) (count : Int) : Assembler :=
  if 0 < count then asm.emit .push 0 .zr count else asm

/-- Drops words from the stack; nothing is emitted for none. -/
def pop (asm : Assembler) (count : Int) : Assembler :=
  if 0 < count then asm.emit .pop 0 .zr count else asm

def returnWith (asm : Assembler) (results args : Int) : Assembler :=
  asm.emit .return results .zr args

def halt (asm : Assembler) : Assembler := asm.emit .halt 0 .zr 0

/-- A jump to a place that is not known yet. The label stands for `here`. -/
def jump (asm : Assembler) : Assembler := asm.emit .jump 0 .cb Instruction.unresolved

/-- A jump that is taken if the popped word equals `value`. The label stands for
    `here`. -/
def jumpIf (asm : Assembler) (value : Int) : Assembler :=
  asm.emit .jumpif value .cb Instruction.unresolved

/-- The label of the jump emitted next. -/
def nextLabel (asm : Assembler) : Label := ⟨asm.here⟩

def jumpTo (asm : Assembler) (target : Address) : Assembler :=
  asm.emit .jump 0 .cb target.toOperand

def patchTo (asm : Assembler) (label : Label) (target : Address) : Assembler :=
  { asm with code := asm.code.patch label.address target.toOperand }

/-- Completes a jump with the place of the next instruction. -/
def patch (asm : Assembler) (label : Label) : Assembler := asm.patchTo label asm.here

/-- A call that is completed when the code is finished. -/
def callLater (asm : Assembler) (op : Opcode) (target : SymbolId) : Assembler :=
  let asm' := asm.emit op 0 .cb Instruction.unresolved
  { asm' with relocations := asm.relocations ++ [⟨asm.here, target⟩] }

/-- A call of the method `target`, at `entry` if its code is already placed. -/
def call (asm : Assembler) (onInstance : Bool) (target : SymbolId) (entry : Option Int) :
    Assembler :=
  let op := if onInstance then .calli else .call
  match entry with
  | some entry => asm.emit op 0 .cb entry
  | none => asm.callLater op target

end Assembler

/-- Completes noted calls in order. On the first whose target has no address, or
    that stands nowhere, the code is left with the earlier ones completed. -/
def Code.relocate (table : SymbolTable) (code : Code) :
    List Relocation → Except InternalError Unit × Code
  | [] => (.ok (), code)
  | note :: rest =>
    match (table.slot? note.target).bind (code.patch? note.address) with
    | some code => code.relocate table rest
    | none => (.error (.unresolvedCall note.address note.target), code)

/-- The finished code with all noted calls completed. -/
def Assembler.finish (asm : Assembler) (table : SymbolTable) : Except InternalError Code :=
  match asm.code.relocate table asm.relocations with
  | (.ok _, code) => .ok code
  | (.error fault, _) => .error fault

end SmallJava
