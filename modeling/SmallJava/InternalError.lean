import SmallJava.Ty

namespace SmallJava

/-- A broken invariant of code generation. None of these describes a mistake in
    the program being compiled. -/
inductive InternalError where
  | missingBinding (line : Nat)
  | missingType (line : Nat)
  | slotReassigned (symbol : SymbolId)
  | slotUnassigned (symbol : SymbolId)
  | unresolvedCall (address : Nat) (target : SymbolId)
  | invalidTarget (line : Nat)
  | missingEntry
  | builtinMember (cls : SymbolId) (name : String)
  | wrongKind (symbol : SymbolId) (expected : String)
  deriving DecidableEq

/-- The name of the broken invariant, the same whatever it is about. -/
def InternalError.label : InternalError → String
  | missingBinding .. => "MissingBinding"
  | missingType .. => "MissingType"
  | slotReassigned .. => "SlotReassigned"
  | slotUnassigned .. => "SlotUnassigned"
  | unresolvedCall .. => "UnresolvedPatch"
  | invalidTarget .. => "InvalidTarget"
  | missingEntry => "MissingEntry"
  | builtinMember .. => "BuiltinMember"
  | wrongKind .. => "WrongDeclKind"

def InternalError.message : InternalError → String
  | missingBinding line => s!"node at line {line} was never bound to a declaration"
  | missingType line => s!"node at line {line} was never assigned a type"
  | slotReassigned symbol => s!"storage slot of {symbol} assigned twice"
  | slotUnassigned symbol => s!"storage slot of {symbol} read before it was assigned"
  | unresolvedCall address target =>
    s!"call at address {address} targets {target}, which never received a code address"
  | invalidTarget line => s!"invalid assignment target at line {line}"
  | missingEntry => "no entry method was recorded"
  | builtinMember cls name => s!"built-in member {name} of {cls} could not be registered"
  | wrongKind symbol expected => s!"expected {expected} declaration for {symbol}"

instance : ToString InternalError := ⟨InternalError.message⟩

end SmallJava
