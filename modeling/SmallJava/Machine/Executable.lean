import SmallJava.Machine.Code
import SmallJava.Symbol.Basic

namespace SmallJava

/-- A call whose target was not known when it was emitted. -/
structure Relocation where
  address : Address
  target : SymbolId
  deriving DecidableEq

/-- A compiled program: its code, the address of the entry method, and the calls
    that were completed after the code was emitted. -/
structure Executable where
  code : Code
  entry : Address
  relocations : List Relocation

namespace Executable

/-- Whether some jump or call was never completed. -/
def hasUnresolved (executable : Executable) : Bool :=
  executable.code.instructions.any (·.isUnresolved)

/-- A number in decimal, filled with blanks on the left. -/
def column (width n : Nat) : String :=
  let digits := toString n
  String.ofList (List.replicate (width - digits.length) ' ') ++ digits

/-- One line for each instruction: address, source line and assembly notation. -/
def listing (executable : Executable) : String :=
  String.join <| executable.code.cells.toList.zipIdx.map fun (cell, address) =>
    s!"{column 5 address}  {column 4 cell.line}  {cell.instr}\n"

end Executable

end SmallJava
