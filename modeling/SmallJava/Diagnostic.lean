import SmallJava.Basic

namespace SmallJava

/-- What analysis can find wrong with a program. The first group is about names
    that cannot be bound, the second about types that do not fit. -/
inductive Diagnostic where
  | duplicateClass (name : String) (span : Span)
  | duplicateMember (name cls : String) (span : Span)
  | duplicateVariable (name : String) (span : Span)
  | unknownClass (name : String) (span : Span)
  | undeclaredIdentifier (name : String) (span : Span)
  | staticContext (name : String) (span : Span)
  | thisInStaticContext (span : Span)
  | selfReferentialInit (name : String) (span : Span)
  | memberOfMethod (name : String) (span : Span)
  | memberOfNonObject (name : String) (span : Span)
  | noSuchMember (name owner visibility : String) (span : Span)
  | missingEntryPoint (span : Span)
  | typeMismatch (message : String) (span : Span)
  | invalidOperand (op arity : String) (span : Span)
  | invalidAssignment (target : String) (span : Span)
  | invalidIndexTarget (target : String) (span : Span)
  | notAValue (what : String) (span : Span)
  | notCallable (span : Span)
  | argumentCount (method : String) (expected found : Nat) (span : Span)
  | invalidReturn (message : String) (span : Span)
  | missingReturn (method : String) (span : Span)
  | solitaryDeclaration (span : Span)
  deriving DecidableEq

namespace Diagnostic

/-- The two groups of mistakes. -/
inductive Kind where
  | identification
  | typing
  deriving DecidableEq

def kind : Diagnostic → Kind
  | duplicateClass .. | duplicateMember .. | duplicateVariable .. | unknownClass ..
  | undeclaredIdentifier .. | staticContext .. | thisInStaticContext .. | selfReferentialInit ..
  | memberOfMethod .. | memberOfNonObject .. | noSuchMember .. | missingEntryPoint .. =>
    .identification
  | typeMismatch .. | invalidOperand .. | invalidAssignment .. | invalidIndexTarget ..
  | notAValue .. | notCallable .. | argumentCount .. | invalidReturn .. | missingReturn ..
  | solitaryDeclaration .. => .typing

/-- A name that cannot be bound leaves later checks without the declarations
    they rely on, a type that does not fit does not. -/
def isFatal (diagnostic : Diagnostic) : Bool := diagnostic.kind == .identification

def span : Diagnostic → Span
  | duplicateClass _ span | duplicateMember _ _ span | duplicateVariable _ span
  | unknownClass _ span | undeclaredIdentifier _ span | staticContext _ span
  | thisInStaticContext span | selfReferentialInit _ span | memberOfMethod _ span
  | memberOfNonObject _ span | noSuchMember _ _ _ span | missingEntryPoint span
  | typeMismatch _ span | invalidOperand _ _ span | invalidAssignment _ span
  | invalidIndexTarget _ span | notAValue _ span | notCallable span
  | argumentCount _ _ _ span | invalidReturn _ span | missingReturn _ span
  | solitaryDeclaration span => span

/-- The name of the mistake, the same whatever it is about. -/
def label : Diagnostic → String
  | duplicateClass .. => "DuplicateClass"
  | duplicateMember .. => "DuplicateMember"
  | duplicateVariable .. => "DuplicateVariable"
  | unknownClass .. => "UnknownClass"
  | undeclaredIdentifier .. => "UndeclaredIdentifier"
  | staticContext .. => "StaticContext"
  | thisInStaticContext .. => "ThisInStaticContext"
  | selfReferentialInit .. => "SelfReferentialInit"
  | memberOfMethod .. => "MemberOfMethod"
  | memberOfNonObject .. => "MemberOfNonObject"
  | noSuchMember .. => "NoSuchMember"
  | missingEntryPoint .. => "MissingEntryPoint"
  | typeMismatch .. => "TypeMismatch"
  | invalidOperand .. => "InvalidOperand"
  | invalidAssignment .. => "InvalidAssignment"
  | invalidIndexTarget .. => "InvalidIndexTarget"
  | notAValue .. => "NotAValue"
  | notCallable .. => "NotCallable"
  | argumentCount .. => "ArgumentCount"
  | invalidReturn .. => "InvalidReturn"
  | missingReturn .. => "MissingReturn"
  | solitaryDeclaration .. => "SolitaryDeclaration"

def line (diagnostic : Diagnostic) : Nat := diagnostic.span.line

/-- What is wrong, without the place. -/
def problem : Diagnostic → String
  | duplicateClass name _ => s!"duplicate class declaration '{name}'"
  | duplicateMember name cls _ => s!"duplicate member name '{name}' in class '{cls}'"
  | duplicateVariable name _ => s!"variable '{name}' is already declared in this scope"
  | unknownClass name _ => s!"unknown class name '{name}'"
  | undeclaredIdentifier name _ => s!"no declarations matching the name '{name}'"
  | staticContext name _ => s!"cannot reference non-static member '{name}' from a static context"
  | thisInStaticContext _ => "cannot reference \"this\" from a static context"
  | selfReferentialInit name _ => s!"cannot reference variable '{name}' in its own initializer"
  | memberOfMethod name _ => s!"cannot access member '{name}' of a method"
  | memberOfNonObject name _ => s!"cannot access member '{name}' of a non-object reference"
  | noSuchMember name owner visibility _ => s!"no {visibility}member called '{name}' in {owner}"
  | missingEntryPoint _ => "entry point \"public static void main(String[] args)\" not found"
  | typeMismatch message _ => message
  | invalidOperand op arity _ => s!"invalid operand type for {arity} operator '{op}'"
  | invalidAssignment target _ => s!"cannot reassign {target}"
  | invalidIndexTarget target _ => s!"cannot perform array access on {target}"
  | notAValue what _ => s!"cannot refer directly to a {what}"
  | notCallable _ => "cannot call a non-function reference as a function"
  | argumentCount method expected found _ =>
    s!"method '{method}' expects {expected} argument(s) but {found} were given"
  | invalidReturn message _ => message
  | missingReturn method _ =>
    s!"no return statement found at the end of the non-void method '{method}'"
  | solitaryDeclaration _ =>
    "a variable declaration cannot be the solitary statement of a branch"

/-- A diagnostic as the user reads it: the place, then the problem. -/
def message (diagnostic : Diagnostic) : String :=
  s!"at {diagnostic.span}: {diagnostic.problem}"

instance : ToString Diagnostic := ⟨message⟩

/-- The diagnostics of one compilation, in the order in which they were found. -/
abbrev Log := List Diagnostic

namespace Log

def report (log : Log) (diagnostic : Diagnostic) : Log := log ++ [diagnostic]

def countOf (log : Log) (kind : Kind) : Nat := log.countP fun entry => entry.kind == kind

def lines (log : Log) : List Nat := log.map Diagnostic.line

/-- One line of text for each diagnostic. -/
def render (log : Log) : String := String.join (log.map fun entry => entry.message ++ "\n")

end Log

end Diagnostic

end SmallJava
