import SmallJava.Analysis.Package
import SmallJava.Codegen.Stmt
import SmallJava.Symbol.Layout

namespace SmallJava

open Gen

namespace Gen

/-- Assigns the slots of all declarations but locals and methods, and yields the
    number of static fields. -/
def layout : Gen Int := fun state =>
  match SlotWriter.layout state.table with
  | .ok statics table => .ok statics { state with table }
  | .error fault table => .error fault { state with table }

/-- The start of a program: room for the static fields, an empty array as the
    argument of the entry method, and a halt when that returns. -/
def prologue (statics : Int) (entry : SymbolId) : Gen Unit := do
  emit (·.setLine 0)
  emit (·.push statics)
  emit (·.literal 0)
  emit (·.primitive .newarr)
  emit (·.callLater .call entry)
  emit (·.halt)

/-- The body of `println`: prints its argument and ends the line. -/
def printlnBody (println : SymbolId) : Gen Unit := do
  setSlot println (← here).toOperand
  emit (·.load .lb (-1))
  emit (·.primitive .putintnl)
  emit (·.returnWith 0 1)

end Gen

/-- Code for a method. A `void` method returns at its end, unless control never
    gets there. -/
def MethodDef.gen (options : Options) (method : MethodDef) : Gen Unit := do
  let symbol ← bound method.binding method.span
  emit (·.setLine method.span.line)
  setSlot symbol (← here).toOperand
  modify fun state => { state with nextLocal := linkDataSize, known := .empty }
  let site : Site := { folding := options.foldConstants, argCount := method.params.length }
  Stmt.genAll site method.body
  if method.returnType.isVoid && !Stmt.allReturn method.body then
    emit (·.returnWith 0 site.argCount)

/-- Code for methods one after the other. -/
def MethodDef.genAll (options : Options) : List MethodDef → Gen Unit
  | [] => pure ()
  | method :: rest => do
    method.gen options
    genAll options rest

/-- A slot read as an address, which is an unsigned word of 64 bits. -/
def Address.ofSlot (slot : Int) : Address := (slot % 0x10000000000000000).toNat

/-- Code for an analysed package: prologue, `println`, then all methods in
    declaration order. -/
def Package.gen (options : Options) (builtins : Builtins) (entry : SymbolId) (package : Package) :
    Gen Executable := do
  let statics ← layout
  prologue statics entry
  printlnBody builtins.println
  MethodDef.genAll options (package.classes.flatMap (·.methods))
  let entrySlot ← expectSlot entry
  let state ← get
  let code ← Gen.ofExcept (state.asm.finish state.table)
  pure { code, entry := Address.ofSlot entrySlot, relocations := state.asm.relocations }

/-- Generates a program from an analysed package. The table comes back with the
    slots that were assigned, also after a fault. -/
def Package.generate (options : Options) (analysis : Analysis) (entry : SymbolId)
    (package : Package) : Except InternalError Executable × SymbolTable :=
  match package.gen options analysis.builtins entry { table := analysis.table } with
  | .ok executable state => (.ok executable, state.table)
  | .error fault state => (.error fault, state.table)

end SmallJava
