import SmallJava.Analysis.Env

namespace SmallJava

/-- What a bare name denotes, unless the place where it stands forbids it: a
    variable may not occur in its own initial value, nor an instance member in a
    static method. -/
def Env.symbolNamed (env : Env) (name : Ident) : Except Diagnostic SymbolId :=
  match env.scope.lookup name.name with
  | none => .error (.undeclaredIdentifier name.name name.span)
  | some found =>
    if env.initializing = some found.symbol then
      .error (.selfReferentialInit name.name name.span)
    else
      match found with
      | .member symbol =>
        if env.method.isStatic && !env.table.isStatic symbol then
          .error (.staticContext name.name name.span)
        else .ok symbol
      | found => .ok found.symbol

/-- The member of a class by its name. All members are visible inside the class,
    the public ones elsewhere. -/
def Env.memberNamed (env : Env) (cls : SymbolId) (name : Ident) : Except Diagnostic SymbolId :=
  let isOwn := cls = env.method.cls
  let visible := (env.table.classInfo? cls).map fun info =>
    if isOwn then info.members else info.visible
  match visible.bind (·.get? name.name) with
  | some symbol => .ok symbol
  | none =>
    .error (.noSuchMember name.name s!"class {env.table.nameOf cls}"
      (if isOwn then "" else "public ") name.span)

/-- The member that `owner.name` denotes. A class before the dot gives access to
    its static members, an object to all members of its class, an array to its
    length. -/
def Env.memberOf (env : Env) (owner : Reference) (ownerTy : Ty) (name : Ident) :
    Except Diagnostic SymbolId :=
  match owner.binding, owner.kind? env.table with
  | _, some (.method _) => .error (.memberOfMethod name.name name.span)
  | some cls, some (.cls _) =>
    match env.memberNamed cls name with
    | .error fatal => .error fatal
    | .ok symbol =>
      if env.table.isStatic symbol then .ok symbol
      else .error (.staticContext name.name name.span)
  | _, _ =>
    match ownerTy with
    | .object cls => env.memberNamed cls name
    | .array _ =>
      if name.name = "length" then .ok env.builtins.arrayLength
      else .error (.noSuchMember name.name "an array" "" name.span)
    | _ => .error (.memberOfNonObject name.name name.span)

/-- Binds the names of a path from left to right and types each of its steps. A
    mistake in it is always fatal and leaves the steps before it annotated. -/
def Reference.analyze (env : Env) :
    Reference → Except (Reference × Diagnostic) (Reference × Ty)
  | .this annot =>
    if env.method.isStatic then .error (.this annot, .thisInStaticContext annot.span)
    else
      let ty := .object env.method.cls
      .ok (.this { annot with ty := some ty }, ty)
  | .ident annot name =>
    match env.symbolNamed name with
    | .error fatal => .error (.ident annot name, fatal)
    | .ok symbol =>
      let ty := env.table.typeOf symbol
      .ok (.ident { annot with ty := some ty } { name with binding := some symbol }, ty)
  | .member annot owner name =>
    match owner.analyze env with
    | .error (owner, fatal) => .error (.member annot owner name, fatal)
    | .ok (owner, ownerTy) =>
      match env.memberOf owner ownerTy name with
      | .error fatal => .error (.member annot owner name, fatal)
      | .ok symbol =>
        let ty := env.table.typeOf symbol
        .ok (.member { annot with ty := some ty } owner { name with binding := some symbol }, ty)

end SmallJava
