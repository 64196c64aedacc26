import SmallJava.Analysis.Stmt
import SmallJava.Syntax.Definition

namespace SmallJava

open Walk

/-- Resolves the type of a declaration and appends the declaration to the table,
    in the way that `declare` says. -/
def Walk.declareTyped {ν : Type} (node : ν) (type : TypeExpr)
    (declare : SymbolTable → Ty → Except Diagnostic SymbolTable) : Walk ν SymbolId := do
  let bindings ← get
  let ty ← Check.orAbort node (type.resolve bindings.scope bindings.builtins)
  let table ← Check.orAbort node (declare bindings.table ty)
  set { bindings with table }
  pure bindings.table.nextId

/-- Appends a member, or says that its class has one of that name already. -/
def SymbolTable.declareMember (cls : SymbolId) (className name : String) (kind : SymbolKind)
    (span : Span) (table : SymbolTable) (ty : Ty) : Except Diagnostic SymbolTable :=
  match table.addMember? cls name kind ty span with
  | some table => .ok table
  | none => .error (.duplicateMember name className span)

def FieldDef.declare (cls : SymbolId) (className : String) (field : FieldDef) :
    Walk FieldDef FieldDef := do
  let symbol ← declareTyped field field.type
    (SymbolTable.declareMember cls className field.name (.field cls field.modifiers) field.span)
  pure { field with binding := some symbol }

def ParamDef.declare (param : ParamDef) : Walk ParamDef ParamDef := do
  let symbol ← declareTyped param param.type fun table ty =>
    .ok (table.add param.name .param ty param.span)
  pure { param with binding := some symbol }

/-- Declares a method, then its parameters. -/
def MethodDef.declare (cls : SymbolId) (className : String) (method : MethodDef) :
    Walk MethodDef MethodDef := do
  let info : MethodInfo := { owner := cls, modifiers := method.modifiers }
  let symbol ← declareTyped method method.returnType
    (SymbolTable.declareMember cls className method.name (.method info) method.span)
  let method := { method with binding := some symbol }
  let params ← within ({ method with params := · }) (each ParamDef.declare method.params)
  modify fun bindings =>
    { bindings with table := bindings.table.setParams symbol (params.filterMap (·.binding)) }
  pure { method with params }

/-- Declares the name of a class. -/
def ClassDef.declare (cls : ClassDef) : Walk ClassDef ClassDef := do
  let bindings ← get
  let symbol := bindings.table.nextId
  match bindings.scope.declareClass? cls.name symbol with
  | none => Check.abort cls (.duplicateClass cls.name cls.span)
  | some scope =>
    set { bindings with table := bindings.table.addClass cls.name cls.span, scope }
    pure { cls with binding := some symbol }

/-- Declares the members of a class, the fields first. -/
def ClassDef.declareMembers (cls : ClassDef) : Walk ClassDef ClassDef := do
  match cls.binding with
  | none => pure cls
  | some symbol =>
    let fields ← within ({ cls with fields := · })
      (each (FieldDef.declare symbol cls.name) cls.fields)
    let cls := { cls with fields }
    let methods ← within ({ cls with methods := · })
      (each (MethodDef.declare symbol cls.name) cls.methods)
    pure { cls with methods }

/-- Brings a declared parameter into force. -/
def ParamDef.enter (param : ParamDef) : Walk ParamDef ParamDef := do
  let bindings ← get
  match param.binding with
  | none => pure param
  | some symbol =>
    let scope ← Check.orAbort param (bindings.scope.declareLocal param.name symbol param.span)
    set { bindings with scope }
    pure param

/-- A method that is to return something must never run past its end. -/
def Typing.methodEnd (method : MethodDef) (returnTy : Ty) : List Diagnostic :=
  if !returnTy.isVoid && !Stmt.allReturn method.body then
    [.missingReturn method.name method.span]
  else []

/-- Analyses the body of a declared method. The parameters share a layer of
    names with the top level of the body. -/
def MethodDef.analyze (cls : SymbolId) (method : MethodDef) : Walk MethodDef MethodDef := do
  match method.binding with
  | none => pure method
  | some symbol =>
    onScope Scope.enterMethod
    let params ← within ({ method with params := · }) (each ParamDef.enter method.params)
    let method := { method with params }
    let returnTy := (← get).table.typeOf symbol
    let context : MethodContext := { cls, isStatic := method.modifiers.isStatic, returnTy }
    let body ← within ({ method with body := · }) (Stmt.analyzeAll context method.body)
    let method := { method with body }
    report (Typing.methodEnd method returnTy)
    pure method

/-- Analyses the methods of a declared class. -/
def ClassDef.analyze (cls : ClassDef) : Walk ClassDef ClassDef := do
  match cls.binding with
  | none => pure cls
  | some symbol =>
    let info := ((← get).table.classInfo? symbol).getD {}
    onScope (·.enterClass info.members)
    let methods ← within ({ cls with methods := · }) (each (MethodDef.analyze symbol) cls.methods)
    pure { cls with methods }

/-- Declares all classes, then all members, so that bodies can use what comes
    after them, and analyses the bodies last. -/
def ClassDef.analyzeAll (classes : List ClassDef) : Walk (List ClassDef) (List ClassDef) := do
  let classes ← each ClassDef.declare classes
  let classes ← each ClassDef.declareMembers classes
  each ClassDef.analyze classes

/-- What code generation needs to know besides the annotated tree. -/
structure Analysis where
  table : SymbolTable
  builtins : Builtins
  /-- The method that the program starts with, if it has one. -/
  entry : Option SymbolId

/-- The result of analysing a package: the tree with its annotations, all that
    was found wrong, and the declarations unless a fatal mistake cut the
    analysis short. -/
structure Analyzed where
  package : Package
  log : Diagnostic.Log
  analysis? : Option Analysis

namespace Package

/-- The first method in declaration order with the signature of an entry point. -/
def entryMethod? (package : Package) : Option MethodDef :=
  (package.classes.flatMap (·.methods)).find? (·.hasEntrySignature)

/-- Analyses a package. A missing entry point is found last and cuts nothing
    short. -/
def analyze (package : Package) : Analyzed :=
  match ClassDef.analyzeAll package.classes |>.run .initial |>.run [] with
  | .error classes log => { package := { package with classes }, log, analysis? := none }
  | .ok (classes, bindings) log =>
    let package := { package with classes }
    let entry := package.entryMethod?.bind (·.binding)
    let log := if entry.isSome then log else log.report (.missingEntryPoint package.span)
    let analysis : Analysis := { table := bindings.table, builtins := bindings.builtins, entry }
    { package, log, analysis? := some analysis }

end Package

end SmallJava
