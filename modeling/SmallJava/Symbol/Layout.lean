import SmallJava.Symbol.Table

namespace SmallJava

/-- The assignment of slots. The ones assigned before a fault stay. -/
abbrev SlotWriter := EStateM InternalError SymbolTable

namespace SlotWriter

def assign (symbol : SymbolId) (slot : Int) : SlotWriter Unit := fun table =>
  match table.setSlot symbol slot with
  | .ok table => .ok () table
  | .error fault => .error fault table

/-- Numbers the static fields from `statics` and the instance fields from `own`
    on, and yields the next numbers of both kinds. -/
def layoutFields (statics own : Int) : List SymbolId → SlotWriter (Int × Int)
  | [] => pure (statics, own)
  | field :: rest => do
    if (← get).isStatic field then
      assign field statics
      layoutFields (statics + 1) own rest
    else
      assign field own
      layoutFields statics (own + 1) rest

/-- Numbers parameters from `offset` on. -/
def layoutParams (offset : Int) : List SymbolId → SlotWriter Unit
  | [] => pure ()
  | param :: rest => do
    assign param offset
    layoutParams (offset + 1) rest

/-- Gives the parameters of each method the offsets right below its frame, so
    that the last one has offset `-1`. -/
def layoutMethods : List SymbolId → SlotWriter Unit
  | [] => pure ()
  | method :: rest => do
    let params := (← get).paramsOf method
    layoutParams (-params.length) params
    layoutMethods rest

/-- Lays out classes in order and yields the next number of a static field. -/
def layoutClasses (statics : Int) : List SymbolId → SlotWriter Int
  | [] => pure statics
  | cls :: rest => do
    match (← get).classInfo? cls with
    | none => throw (.wrongKind cls "class")
    | some info =>
      let (statics, own) ← layoutFields statics 0 info.fields
      assign cls own
      layoutMethods info.methods
      layoutClasses statics rest

/-- Assigns the slots of all fields, classes and parameters: static fields are
    numbered across all classes, instance fields within theirs. Yields the
    number of static fields. -/
def layout : SlotWriter Int := do layoutClasses 0 (← get).classes

end SlotWriter

end SmallJava
