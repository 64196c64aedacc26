import SmallJava.Codegen.State

namespace SmallJava

open Gen

/-- Where an assignment goes: to a word at an offset from a register, or to a
    field whose object and offset are on the stack. -/
inductive Destination where
  | register (r : Register) (d : Int)
  | field
  deriving DecidableEq

/-- The register from which a variable is addressed, or a field of the current
    object or class. -/
def SymbolKind.base? : SymbolKind → Option Register
  | localVar | param => some .lb
  | field _ modifiers => some (if modifiers.isStatic then .sb else .ob)
  | _ => none

/-- The place of a variable, or of a field of the current object or class. -/
def Gen.place (symbol : SymbolId) : Gen (Register × Int) := do
  match ((← table).kind? symbol).bind (·.base?) with
  | some r => return (r, ← expectSlot symbol)
  | none => throw (.wrongKind symbol "variable")

namespace Reference

/-- Pushes the value of a path. -/
def push : Reference → Gen Unit
  | this _ => emit (·.loadAddress .ob 0)
  | ident _ name => do
    let symbol ← bound name.binding name.span
    let (r, d) ← place symbol
    emit (·.load r d)
  | member _ owner name => do
    let symbol ← bound name.binding name.span
    let table ← table
    match table.kind? symbol with
    | some .arrayLength => do
      owner.push
      emit (·.primitive .arraylen)
    | some (.field ..) =>
      if table.isStatic symbol then do
        let slot ← expectSlot symbol
        emit (·.load .sb slot)
      else if owner.isThis then do
        let slot ← expectSlot symbol
        emit (·.load .ob slot)
      else do
        owner.push
        let slot ← expectSlot symbol
        emit (·.literal slot)
        emit (·.primitive .fieldref)
    | _ => throw (.wrongKind symbol "field")

/-- Prepares an assignment to a path. The object and offset of a field of
    another object are pushed now, so that the value comes after them. -/
def destination (target : Reference) : Gen Destination := do
  match target with
  | this annot => throw (.invalidTarget annot.span.line)
  | ident _ name =>
    let symbol ← bound name.binding name.span
    let (r, d) ← place symbol
    pure (.register r d)
  | member annot owner name =>
    let symbol ← bound name.binding name.span
    let table ← table
    if table.isField symbol then
      let slot ← expectSlot symbol
      if table.isStatic symbol then pure (.register .sb slot)
      else if owner.isThis then pure (.register .ob slot)
      else
        owner.push
        emit (·.literal slot)
        pure .field
    else throw (.invalidTarget annot.span.line)

end Reference

end SmallJava
