import SmallJava.Dict
import SmallJava.Ty

namespace SmallJava

/-- The members of a class. Fields and methods share one namespace; `visible`
    holds the part of it that other classes may use. -/
structure ClassInfo where
  members : Dict String SymbolId := .empty
  visible : Dict String SymbolId := .empty
  fields : List SymbolId := []
  methods : List SymbolId := []
  deriving Inhabited

structure MethodInfo where
  owner : SymbolId
  modifiers : Modifiers
  params : List SymbolId := []
  deriving Inhabited

/-- What a symbol stands for. All arrays share one `arrayLength`. -/
inductive SymbolKind where
  | cls (info : ClassInfo)
  | field (owner : SymbolId) (modifiers : Modifiers)
  | method (info : MethodInfo)
  | param
  | localVar
  | arrayLength
  deriving Inhabited

namespace SymbolKind

def class? : SymbolKind → Option ClassInfo
  | cls info => some info
  | _ => none

def method? : SymbolKind → Option MethodInfo
  | method info => some info
  | _ => none

def isClass (kind : SymbolKind) : Bool := kind.class?.isSome

def isMethod (kind : SymbolKind) : Bool := kind.method?.isSome

def isField : SymbolKind → Bool
  | field .. => true
  | _ => false

/-- The modifiers of a member; nothing else has any. -/
def modifiers? : SymbolKind → Option Modifiers
  | field _ modifiers => some modifiers
  | method info => some info.modifiers
  | _ => none

def isStatic (kind : SymbolKind) : Bool := kind.modifiers?.any (·.isStatic)

end SymbolKind

/-- One declaration. The type of a method is its return type, that of a class
    the type of its instances. The slot is where the symbol lives at run time:
    an offset from a base register for variables, a code address for methods,
    the number of instance fields for classes. Slots are meant to fit signed words
    of 32 bits. Code addresses are wrapped around before they become slots
    (`Address.toOperand`); offsets and numbers of fields are not, as frames, objects
    and static data are taken to stay below 2^31 words. -/
structure Symbol where
  name : String
  kind : SymbolKind
  ty : Ty
  span : Span
  slot : Option Int := none
  deriving Inhabited

end SmallJava
