import SmallJava.Syntax.Stmt

namespace SmallJava

structure FieldDef where
  modifiers : Modifiers
  type : TypeExpr
  name : String
  span : Span := {}
  binding : Option SymbolId := none

structure ParamDef where
  type : TypeExpr
  name : String
  span : Span := {}
  binding : Option SymbolId := none

structure MethodDef where
  modifiers : Modifiers
  returnType : TypeExpr
  name : String
  params : List ParamDef
  body : List Stmt
  span : Span := {}
  binding : Option SymbolId := none

structure ClassDef where
  name : String
  fields : List FieldDef
  methods : List MethodDef
  span : Span := {}
  binding : Option SymbolId := none

/-- A whole program. The order of classes and members fixes the order of their
    symbols, their storage and their code. -/
structure Package where
  classes : List ClassDef
  span : Span := {}

instance : Spanned FieldDef where
  span field := field.span
  withSpan span field := { field with span }

instance : Spanned ParamDef where
  span param := param.span
  withSpan span param := { param with span }

instance : Spanned MethodDef where
  span method := method.span
  withSpan span method := { method with span }

instance : Spanned ClassDef where
  span cls := cls.span
  withSpan span cls := { cls with span }

instance : Spanned Package where
  span package := package.span
  withSpan span package := { package with span }

/-- Being written `public static void main(String[] …)`. -/
def MethodDef.hasEntrySignature (method : MethodDef) : Bool :=
  method.name == "main" && !method.modifiers.isPrivate && method.modifiers.isStatic &&
    method.returnType.isVoid &&
    match method.params with
    | [param] => param.type.isStringArray
    | _ => false

end SmallJava
