import SmallJava.Symbol.Table

namespace SmallJava

/-- The declarations that every program finds in place. -/
structure Builtins where
  system : SymbolId
  string : SymbolId
  out : SymbolId
  println : SymbolId
  printlnArg : SymbolId
  arrayLength : SymbolId
  deriving DecidableEq, Inhabited

/-- Adds the classes
    `class System { public static _PrintStream out; }`,
    `class _PrintStream { public static void println(int n); }` and
    `class String {}`, and the length of arrays. Since `println` is static,
    `System.out` never has to hold an object. -/
def Builtins.install (table : SymbolTable) : SymbolTable × Builtins :=
  let system := table.nextId
  let table := table.addClass "System" {}
  let printStream := table.nextId
  let table := table.addClass "_PrintStream" {}
  let string := table.nextId
  let table := table.addClass "String" {}
  let out := table.nextId
  let table := table.insertMember system "out" (.field system { isStatic := true })
    (.object printStream) {}
  let println := table.nextId
  let table := table.insertMember printStream "println"
    (.method { owner := printStream, modifiers := { isStatic := true } }) .void {}
  let printlnArg := table.nextId
  let table := (table.add "n" .param .int {}).setParams println [printlnArg]
  let arrayLength := table.nextId
  let table := table.add "length" .arrayLength .int {}
  (table, { system, string, out, println, printlnArg, arrayLength })

end SmallJava
