namespace SmallJava

/-- A position in the source text. Lines and columns count from one, so the
    default position `0:0` marks a node that was never placed. -/
structure Span where
  line : Nat := 0
  col : Nat := 0
  deriving DecidableEq, Inhabited

/-- The start of a line. -/
def Span.atLine (line : Nat) : Span := ⟨line, 1⟩

/-- No source line has number zero: such a position was made up. -/
def Span.isSynthetic (span : Span) : Bool := span.line == 0

/-- Only the exact default counts as unplaced: `0:1` is a position someone chose. -/
def Span.isUnplaced (span : Span) : Bool := span == {}

instance : ToString Span where
  toString span := s!"{span.line}:{span.col}"

/-- Nodes that carry a position. -/
class Spanned (α : Type) where
  span : α → Span
  withSpan : Span → α → α

/-- The position of a symbol in the symbol table of one compilation. Positions are meant to fit
    words of 32 bits and are kept as numbers: tables are taken to stay below 2^32 symbols, all
    of which would have to be in memory at once. -/
structure SymbolId where
  index : Nat
  deriving DecidableEq, Inhabited

instance : ToString SymbolId where
  toString id := s!"#{id.index}"

/-- What a member is declared as besides its type and name. A member is public
    and belongs to an instance unless it says otherwise. -/
structure Modifiers where
  isPrivate : Bool := false
  isStatic : Bool := false
  deriving DecidableEq, Inhabited

/-- The values of programs: integers whose arithmetic wraps around, and what
    stands for truth values and objects. -/
abbrev Word := Int32

namespace Word

def ofBool (b : Bool) : Word := if b then 1 else 0

/-- Only one word stands for `true`. -/
def isTrue (word : Word) : Bool := word == 1

/-- The word that stands for no object, and for `false`. -/
def null : Word := 0

end Word

end SmallJava
