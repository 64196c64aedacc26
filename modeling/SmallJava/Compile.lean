import SmallJava.Codegen.Package

namespace SmallJava

/-- Why a package was not compiled. -/
inductive CompileError where
  /-- The diagnostics say why. -/
  | rejected
  | internal (fault : InternalError)
  deriving DecidableEq

def CompileError.message : CompileError → String
  | rejected => "program rejected, see the reported diagnostics"
  | internal fault => fault.message

/-- What is said of an analysis that a fatal diagnostic cut short. -/
def Analyzed.abortMessage : String := "analysis aborted after an identification error"

/-- Decides from the diagnostics whether a package is rejected. -/
abbrev Policy := Diagnostic.Log → Bool

/-- Any diagnostic is a reason to reject a package. -/
def Policy.any : Policy := fun log => !log.isEmpty

namespace Package

/-- The result of a successful check: the annotated tree and its declarations. -/
abbrev Checked := Package × Analysis

/-- Analyses a package and rejects it if the analysis was cut short or the
    policy says so. The diagnostics come back in any case. -/
def check (rejects : Policy) (package : Package) : Except CompileError Checked × Diagnostic.Log :=
  let analyzed := package.analyze
  match analyzed.analysis? with
  | none => (.error .rejected, analyzed.log)
  | some analysis =>
    if rejects analyzed.log then (.error .rejected, analyzed.log)
    else (.ok (analyzed.package, analysis), analyzed.log)

/-- Checks a package and, if it is accepted, generates its program. -/
def compileWith (rejects : Policy) (options : Options) (package : Package) :
    Except CompileError Executable × Diagnostic.Log :=
  match package.check rejects with
  | (.error error, log) => (.error error, log)
  | (.ok (package, analysis), log) =>
    match analysis.entry with
    | none => (.error (.internal .missingEntry), log)
    | some entry =>
      match (package.generate options analysis entry).1 with
      | .ok executable => (.ok executable, log)
      | .error fault => (.error (.internal fault), log)

end Package

/-- Why there is no program, with all that the user is told. -/
inductive Failure where
  | rejected (log : Diagnostic.Log)
  | internal (fault : InternalError)

def Failure.message : Failure → String
  | rejected log => s!"{log.length} error(s) found:\n{log.render}"
  | internal fault => s!"internal compiler error: {fault}"

/-- Compiles a package, which any diagnostic keeps from being compiled. -/
def Package.compile (options : Options) (package : Package) : Except Failure Executable :=
  match package.compileWith .any options with
  | (.ok executable, _) => .ok executable
  | (.error .rejected, log) => .error (.rejected log)
  | (.error (.internal fault), _) => .error (.internal fault)

end SmallJava
