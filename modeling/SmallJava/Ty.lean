import SmallJava.Basic

namespace SmallJava

/-- The types that analysis gives to expressions and declarations. `error`
    stands for a mistake that is already reported, `unsupported` for `String`,
    which programs may name but not use. -/
inductive Ty where
  | int
  | boolean
  | void
  | object (cls : SymbolId)
  | null
  | array (elem : Ty)
  | error
  | unsupported
  deriving DecidableEq, Inhabited

namespace Ty

/-- Whether a value of one type may stand where the other is expected. The
    unsupported type agrees with nothing, not even with an error; an error
    agrees with all else, so that one mistake is not reported twice; and `null`
    agrees with every object and array. -/
def agrees : Ty → Ty → Bool
  | unsupported, _ => false
  | _, unsupported => false
  | error, _ => true
  | _, error => true
  | int, int => true
  | boolean, boolean => true
  | void, void => true
  | null, null => true
  | null, object _ => true
  | object _, null => true
  | null, array _ => true
  | array _, null => true
  | object a, object b => a == b
  | array a, array b => agrees a b
  | _, _ => false

def isError : Ty → Bool
  | error => true
  | _ => false

/-- Being `void` itself, which an error is not although it agrees with `void`. -/
def isVoid : Ty → Bool
  | void => true
  | _ => false

/-- The type of the elements, for an array. -/
def element? : Ty → Option Ty
  | array elem => some elem
  | _ => none

/-- The class of the instances, for an object type. -/
def class? : Ty → Option SymbolId
  | object cls => some cls
  | _ => none

/-- The spelling of a type that does not depend on a symbol table: classes
    appear by number. -/
def render : Ty → String
  | int => "int"
  | boolean => "boolean"
  | void => "void"
  | object cls => s!"class {cls}"
  | null => "null"
  | array elem => elem.render ++ "[]"
  | error => "<error>"
  | unsupported => "<unsupported>"

instance : ToString Ty := ⟨render⟩

end Ty

end SmallJava
