import SmallJava.Diagnostic
import SmallJava.Dict
import SmallJava.Ty

namespace SmallJava

/-- The layer of names in which a lookup succeeded. -/
inductive Resolved where
  | localVar (symbol : SymbolId)
  | member (symbol : SymbolId)
  | cls (symbol : SymbolId)
  deriving DecidableEq

def Resolved.symbol : Resolved → SymbolId
  | localVar symbol | member symbol | cls symbol => symbol

/-- What counts the blocks around a point of a program. -/
class Depth (δ : Type) where
  /-- Of the parameters and the top level of a method. -/
  top : δ
  /-- Of a block, by the depth around it. -/
  enter : δ → δ
  /-- Of what is around a block, by the depth of the block. Nothing is around the top level. -/
  leave : δ → δ

instance : Depth Nat where
  top := 0
  enter depth := depth + 1
  leave depth := depth - 1

@[simp]
theorem Depth.top_nat : (Depth.top : Nat) = 0 := rfl

@[simp]
theorem Depth.enter_nat (depth : Nat) : Depth.enter depth = depth + 1 := rfl

@[simp]
theorem Depth.leave_nat (depth : Nat) : Depth.leave depth = depth - 1 := rfl

/-- A machine word wraps around when it is outgrown. A build that checks for overflow stops
    there instead. -/
instance : Depth UInt32 where
  top := 0
  enter depth := depth + 1
  leave depth := if depth = 0 then 0 else depth - 1

/-- A parameter or local variable, with the depth of the block that declares it. -/
structure LocalEntry (δ : Type := Nat) where
  symbol : SymbolId
  depth : δ
  deriving DecidableEq

/-- A variable that is hidden until the block at `depth` ends. -/
structure Shadowed (δ : Type := Nat) where
  depth : δ
  name : String
  entry : LocalEntry δ
  deriving DecidableEq

/-- The names in force at one point of a program. Blocks only count a depth; a
    variable that hides an outer one saves it on a stack, the innermost first,
    from which the end of the block restores it. The program counts in a `UInt32`.
    The analysis of a tree, whose blocks nest no deeper than memory holds them, is
    taken to count without bound. -/
structure Scope (δ : Type := Nat) [Depth δ] where
  classes : Dict String SymbolId := .empty
  members : Dict String SymbolId := .empty
  locals : Dict String (LocalEntry δ) := .empty
  depth : δ := Depth.top
  shadowed : List (Shadowed δ) := []

namespace Scope

variable {δ : Type} [Depth δ]

def class? (scope : Scope δ) (name : String) : Option SymbolId := scope.classes.get? name

/-- Adds a class, unless its name is taken. -/
def declareClass? (scope : Scope δ) (name : String) (symbol : SymbolId) : Option (Scope δ) :=
  if scope.classes.contains name then none
  else some { scope with classes := scope.classes.insert name symbol }

/-- Starts a method: no locals, at the top level. -/
def enterMethod (scope : Scope δ) : Scope δ :=
  { scope with locals := .empty, depth := Depth.top, shadowed := [] }

/-- Replaces the member layer. -/
def enterClass (scope : Scope δ) (members : Dict String SymbolId) : Scope δ :=
  { scope with members }.enterMethod

def push (scope : Scope δ) : Scope δ := { scope with depth := Depth.enter scope.depth }

/-- Leaves a block: its variables go, the ones they hid come back. The top level
    loses its variables too but stays. -/
def pop [DecidableEq δ] [LT δ] [DecidableLT δ] (scope : Scope δ) : Scope δ where
  classes := scope.classes
  members := scope.members
  locals :=
    (scope.shadowed.takeWhile (·.depth == scope.depth)).foldl
      (fun locals hidden => locals.insert hidden.name hidden.entry)
      (scope.locals.filter fun _ entry => entry.depth < scope.depth)
  depth := Depth.leave scope.depth
  shadowed := scope.shadowed.dropWhile (·.depth == scope.depth)

/-- Declares a parameter or local variable in the current block. It may hide a
    variable of an outer block but not repeat one of its own. -/
def declareLocal [DecidableEq δ] (scope : Scope δ) (name : String) (symbol : SymbolId)
    (span : Span) : Except Diagnostic (Scope δ) :=
  let locals := scope.locals.insert name ⟨symbol, scope.depth⟩
  match scope.locals.get? name with
  | none => .ok { scope with locals }
  | some entry =>
    if entry.depth = scope.depth then .error (.duplicateVariable name span)
    else .ok { scope with locals, shadowed := ⟨scope.depth, name, entry⟩ :: scope.shadowed }

/-- What a bare name means: locals come before members, members before classes. -/
def lookup (scope : Scope δ) (name : String) : Option Resolved :=
  match scope.locals.get? name with
  | some entry => some (.localVar entry.symbol)
  | none =>
    match scope.members.get? name with
    | some symbol => some (.member symbol)
    | none => (scope.classes.get? name).map .cls

end Scope

end SmallJava
