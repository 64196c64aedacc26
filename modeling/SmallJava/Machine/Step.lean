import SmallJava.Basic
import SmallJava.Machine.Code

namespace SmallJava

/-- What the machine stores: a number, which may be the place of a word on the stack or of an
    instruction, or the place of a word on the heap. The heap lies beyond all numbers, so that
    neither the stack nor the heap is ever full. -/
inductive Datum where
  | number (n : Int)
  | heap (n : Int)
  deriving DecidableEq

namespace Datum

def null : Datum := number 0

def ofWord (word : Word) : Datum := number word.toInt

def ofBool (b : Bool) : Datum := ofWord (.ofBool b)

/-- The place that is `d` words further on. -/
def offset : Datum → Int → Datum
  | number n, d => number (n + d)
  | heap n, d => heap (n + d)

/-- What arithmetic sees of a number: a word of 32 bits. The places of words on the heap are no
    numbers to reckon with. -/
def word? : Datum → Option Word
  | number n => some (.ofInt n)
  | heap _ => none

end Datum

/-- Why a run stops before `HALT`. -/
inductive Fault where
  | divideByZero
  | nullPointer
  | indexOutOfBounds
  | negativeArraySize
  | badAddress (place : Datum)
  | badRegister (register : Register)
  | badPrimitive (code : Int)
  | stackUnderflow
  | unsupported (op : Opcode)
  deriving DecidableEq

/-- The state of the mJAM machine. A frame starts at `LB` with the dynamic link, the saved `OB`
    and the return address. -/
structure Machine where
  /-- The stack, from its bottom. -/
  stack : List Datum := []
  heap : List Datum := []
  /-- The address of the next instruction. -/
  cp : Address := 0
  lb : Int := 0
  ob : Datum := .null
  /-- The values printed so far. -/
  output : List Datum := []

namespace Machine

/-- What an instruction does. -/
abbrev Action := EStateM Fault Machine

def push (d : Datum) : Action Unit := modify fun m => { m with stack := m.stack ++ [d] }

def pop : Action Datum := do
  match (← get).stack.getLast? with
  | some d =>
    modify fun m => { m with stack := m.stack.dropLast }
    pure d
  | none => throw .stackUnderflow

def popMany : Nat → Action Unit
  | 0 => pure ()
  | count + 1 => do
    let _ ← pop
    popMany count

def base (register : Register) : Action Datum := do
  let m ← get
  match register with
  | .sb => pure (.number 0)
  | .lb => pure (.number m.lb)
  | .ob => pure m.ob
  | .st => pure (.number m.stack.length)
  | other => throw (.badRegister other)

/-- The word at an index, which may be negative. -/
def at? (words : List Datum) (index : Int) : Option Datum :=
  if index < 0 then none else words[index.toNat]?

def read (place : Datum) : Action Datum := do
  let m ← get
  let found := match place with
    | .number n => at? m.stack n
    | .heap n => at? m.heap n
  match found with
  | some d => pure d
  | none => throw (.badAddress place)

def write (place d : Datum) : Action Unit := do
  let _ ← read place
  modify fun m =>
    match place with
    | .number n => { m with stack := m.stack.set n.toNat d }
    | .heap n => { m with heap := m.heap.set n.toNat d }

def jump (target : Int) : Action Unit :=
  if target < 0 then throw (.badAddress (.number target))
  else modify fun m => { m with cp := target.toNat }

/-- Starts a frame for code at `target`, which runs for the given object. -/
def call (target : Int) (object : Datum) : Action Unit := do
  modify fun m =>
    { m with
      stack := m.stack ++ [Datum.number m.lb, m.ob, Datum.number m.cp]
      lb := m.stack.length
      ob := object }
  jump target

/-- Ends a frame: the arguments below it go, and the results take their place. -/
def ret (results args : Nat) : Action Unit := do
  let m ← get
  if m.stack.length < results then throw .stackUnderflow
  let kept := m.stack.take (m.stack.length - results)
  match at? kept m.lb, at? kept (m.lb + 1), at? kept (m.lb + 2) with
  | some (.number lb), some ob, some (.number target) =>
    if m.lb < args then throw .stackUnderflow
    set { m with
      stack := kept.take (m.lb - args).toNat ++ m.stack.drop (m.stack.length - results)
      lb
      ob }
    jump target
  | _, _, _ => throw .stackUnderflow

/-- Adds a block of `words` zeros after its header, and yields the place of the first of them. -/
def alloc (header : List Datum) (words : Int) : Action Datum := do
  let m ← get
  set { m with heap := m.heap ++ header ++ List.replicate words.toNat Datum.null }
  pure (.heap (m.heap.length + header.length))

/-- An object that is there. -/
def object (d : Datum) : Action Datum :=
  if d = .null then throw .nullPointer else pure d

/-- The place of an element of an array, whose length stands before the first one. -/
def element (array index : Datum) : Action Datum := do
  let array ← object array
  let length ← read (array.offset (-1))
  match index, length with
  | .number i, .number n =>
    if 0 ≤ i ∧ i < n then pure (array.offset i) else throw .indexOutOfBounds
  | _, _ => throw .indexOutOfBounds

end Machine

namespace Primitive

/-- The result of a primitive with two operands. -/
def compute (primitive : Primitive) (left right : Datum) : Except Fault Datum :=
  let words (f : Word → Word → Except Fault Datum) : Except Fault Datum :=
    match left.word?, right.word? with
    | some a, some b => f a b
    | _, _ => .error (.badPrimitive primitive.code)
  match primitive with
  | and => .ok (.ofBool (left != .null && right != .null))
  | or => .ok (.ofBool (left != .null || right != .null))
  | eq => .ok (.ofBool (left == right))
  | ne => .ok (.ofBool (left != right))
  | lt => words fun a b => .ok (.ofBool (a < b))
  | le => words fun a b => .ok (.ofBool (a ≤ b))
  | gt => words fun a b => .ok (.ofBool (a > b))
  | ge => words fun a b => .ok (.ofBool (a ≥ b))
  | add => words fun a b => .ok (.ofWord (a + b))
  | sub => words fun a b => .ok (.ofWord (a - b))
  | mult => words fun a b => .ok (.ofWord (a * b))
  | div => words fun a b => if b = 0 then .error .divideByZero else .ok (.ofWord (a / b))
  | mod => words fun a b => if b = 0 then .error .divideByZero else .ok (.ofWord (a % b))
  | _ => .error (.badPrimitive primitive.code)

end Primitive

namespace Machine

/-- Calls a routine of the machine. -/
def primitive : Primitive → Action Unit
  | .not => do
    let d ← pop
    push (.ofBool (d == .null))
  | .neg => do
    match (← pop).word? with
    | some word => push (.ofWord (-word))
    | none => throw (.badPrimitive Primitive.neg.code)
  | .putintnl => do
    let d ← pop
    modify fun m => { m with output := m.output ++ [d] }
  | .arraylen => do
    let array ← object (← pop)
    push (← read (array.offset (-1)))
  | .newarr => do
    match ← pop with
    | .number count =>
      if count < 0 then throw .negativeArraySize
      push (← alloc [.number count] count)
    | .heap _ => throw (.badPrimitive Primitive.newarr.code)
  | .newobj => do
    let size ← pop
    let cls ← pop
    match size with
    | .number count => push (← alloc [cls, size] count)
    | .heap _ => throw (.badPrimitive Primitive.newobj.code)
  | .arrayref => do
    let index ← pop
    let array ← pop
    push (← read (← element array index))
  | .arrayupd => do
    let d ← pop
    let index ← pop
    let array ← pop
    write (← element array index) d
  | .fieldref => do
    let d ← pop
    let owner ← object (← pop)
    match d with
    | .number d => push (← read (owner.offset d))
    | .heap _ => throw (.badPrimitive Primitive.fieldref.code)
  | .fieldupd => do
    let value ← pop
    let d ← pop
    let owner ← object (← pop)
    match d with
    | .number d => write (owner.offset d) value
    | .heap _ => throw (.badPrimitive Primitive.fieldupd.code)
  | other => do
    let right ← pop
    let left ← pop
    match other.compute left right with
    | .ok d => push d
    | .error fault => throw fault

/-- Executes an instruction, and tells whether the run goes on. -/
def execute (instr : Instruction) : Action Bool := do
  match instr.op with
  | .load => push (← read ((← base instr.r).offset instr.d))
  | .loada => push ((← base instr.r).offset instr.d)
  | .loadl => push (.number instr.d)
  | .store => do
    let d ← pop
    write ((← base instr.r).offset instr.d) d
  | .push => modify fun m =>
      { m with stack := m.stack ++ List.replicate instr.d.toNat Datum.null }
  | .pop => popMany instr.d.toNat
  | .call =>
    if instr.r = .pb then
      match Primitive.ofCode? instr.d with
      | some routine => primitive routine
      | none => throw (.badPrimitive instr.d)
    else call instr.d (← get).ob
  | .calli => do
    let owner ← object (← pop)
    call instr.d owner
  | .return => ret instr.n.toNat instr.d.toNat
  | .jump => jump instr.d
  | .jumpif => do
    let d ← pop
    if d = .number instr.n then jump instr.d
  | .halt => return false
  | op => throw (.unsupported op)
  pure true

/-- Fetches and executes the next instruction, and tells whether the run goes on. -/
def step (fetch : Address → Option Instruction) : Action Bool := do
  let m ← get
  match fetch m.cp with
  | some instr =>
    set { m with cp := m.cp + 1 }
    execute instr
  | none => throw (.badAddress (.number m.cp))

/-- Whether a run goes on, and how it stopped if not. -/
inductive Status where
  | running
  | halted
  | faulted (fault : Fault)
  deriving DecidableEq

/-- What a run has come to after at most so many steps. -/
def after (fetch : Address → Option Instruction) : Nat → Machine → Status × Machine
  | 0, m => (.running, m)
  | steps + 1, m =>
    match step fetch m with
    | .ok true m => after fetch steps m
    | .ok false m => (.halted, m)
    | .error fault m => (.faulted fault, m)

end Machine

end SmallJava
