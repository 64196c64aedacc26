import SmallJava.Assembler
import SmallJava.Constant
import SmallJava.Symbol.Builtins

namespace SmallJava

structure Options where
  /-- Whether operators on known operands are evaluated in advance, and known
      values of variables used again. -/
  foldConstants : Bool := true
  deriving DecidableEq

/-- Where a piece of code stands. -/
structure Site where
  folding : Bool
  /-- The number of parameters of the method. -/
  argCount : Nat
  /-- Whether the code may be skipped. -/
  inBranch : Bool := false
  /-- Whether the code may run again. -/
  inLoop : Bool := false

namespace Site

def branch (site : Site) : Site := { site with inBranch := true }

def loop (site : Site) : Site := { site with inLoop := true }

end Site

/-- The words that a call leaves at the bottom of a frame, below the locals. -/
def linkDataSize : Int := 3

/-- The state of code generation. -/
structure GenState where
  table : SymbolTable
  asm : Assembler := {}
  /-- The variables whose value is known on the path from the start of the
      method that has neither branched nor looped. -/
  known : Dict SymbolId Word := .empty
  /-- The offset of the next local variable. It is never wrapped around: frames are taken
      to stay below 2^31 words. -/
  nextLocal : Int := linkDataSize

/-- Code generation. What was emitted and assigned before a fault stays. -/
abbrev Gen := EStateM InternalError GenState

/-- What the code of an expression has done: nothing, because the value is
    known, or left the value on the stack. -/
inductive Value where
  | known (word : Word)
  | onStack
  deriving DecidableEq

/-- What the code of a condition has done: nothing, because the outcome is
    known, or jumped on one outcome and not on the other. -/
inductive Cond where
  | known (outcome : Bool)
  | jumps (labels : List Label)
  deriving DecidableEq

namespace Gen

def emit (f : Assembler → Assembler) : Gen Unit :=
  modify fun state => { state with asm := f state.asm }

def here : Gen Address := return (← get).asm.here

/-- Emits a jump of the given kind and yields its label. -/
def emitJump (jump : Assembler → Assembler) : Gen Label := do
  let label := (← get).asm.nextLabel
  emit jump
  pure label

def table : Gen SymbolTable := return (← get).table

def ofExcept {α : Type} : Except InternalError α → Gen α
  | .ok value => pure value
  | .error fault => throw fault

def expectSlot (symbol : SymbolId) : Gen Int := do ofExcept ((← table).expectSlot symbol)

def setSlot (symbol : SymbolId) (slot : Int) : Gen Unit := do
  let table ← ofExcept ((← table).setSlot symbol slot)
  modify fun state => { state with table }

/-- The symbol that a node at `span` was bound to. -/
def bound (binding : Option SymbolId) (span : Span) : Gen SymbolId :=
  match binding with
  | some symbol => pure symbol
  | none => throw (.missingBinding span.line)

/-- The value of an expression that is known where it stands. Code that may run
    again cannot rely on what variables hold the first time. -/
def constantAt (site : Site) (expr : Expr) : Gen (Option Word) := do
  let known := (← get).known
  return expr.constant? site.folding (if site.inLoop then .empty else known)

/-- Completes jumps with the place of the next instruction. -/
def patchAll (labels : List Label) : Gen Unit :=
  emit fun asm => labels.foldl Assembler.patch asm

def patchAllTo (labels : List Label) (target : Address) : Gen Unit :=
  emit fun asm => labels.foldl (fun asm label => asm.patchTo label target) asm

end Gen

end SmallJava
