import SmallJava.Proofs.Syntax.Nodes

namespace SmallJava

/-! Trees without the positions of their nodes. -/

def TypeExpr.unspanned : TypeExpr → TypeExpr
  | .int _ => .int {}
  | .boolean _ => .boolean {}
  | .void _ => .void {}
  | .named _ name => .named {} name
  | .array _ elem => .array {} elem.unspanned

def Annot.unspanned (annot : Annot) : Annot := { annot with span := {} }

def Ident.unspanned (name : Ident) : Ident := { name with span := {} }

def Reference.unspanned : Reference → Reference
  | .this annot => .this annot.unspanned
  | .ident annot name => .ident annot.unspanned name.unspanned
  | .member annot owner name => .member annot.unspanned owner.unspanned name.unspanned

namespace Expr

mutual

def unspanned : Expr → Expr
  | int annot value => int annot.unspanned value
  | bool annot value => bool annot.unspanned value
  | null annot => null annot.unspanned
  | unary annot op operand => unary annot.unspanned op operand.unspanned
  | binary annot op left right => binary annot.unspanned op left.unspanned right.unspanned
  | ternary annot cond onTrue onFalse =>
    ternary annot.unspanned cond.unspanned onTrue.unspanned onFalse.unspanned
  | ref annot target => ref annot.unspanned target.unspanned
  | index annot target subscript => index annot.unspanned target.unspanned subscript.unspanned
  | call annot callee args => call annot.unspanned callee.unspanned (unspannedAll args)
  | newObject annot cls => newObject annot.unspanned cls.unspanned
  | newArray annot elem size => newArray annot.unspanned elem.unspanned size.unspanned

def unspannedAll : List Expr → List Expr
  | [] => []
  | expr :: rest => expr.unspanned :: unspannedAll rest

end

end Expr

def LocalDef.unspanned (var : LocalDef) : LocalDef :=
  { var with type := var.type.unspanned, span := {} }

namespace Stmt

mutual

def unspanned : Stmt → Stmt
  | block _ stmts => block {} (unspannedAll stmts)
  | varDecl _ var init => varDecl {} var.unspanned init.unspanned
  | assign _ target value => assign {} target.unspanned value.unspanned
  | indexAssign _ target subscript value =>
    indexAssign {} target.unspanned subscript.unspanned value.unspanned
  | call _ callee args => call {} callee.unspanned (Expr.unspannedAll args)
  | .return _ value => .return {} (value.map Expr.unspanned)
  | ifElse _ cond onTrue onFalse =>
    ifElse {} cond.unspanned onTrue.unspanned (unspannedOption onFalse)
  | .while _ cond body => .while {} cond.unspanned body.unspanned
  | .for _ init cond update body =>
    .for {} (unspannedOption init) (cond.map Expr.unspanned) (unspannedOption update)
      body.unspanned

def unspannedOption : Option Stmt → Option Stmt
  | none => none
  | some stmt => some stmt.unspanned

def unspannedAll : List Stmt → List Stmt
  | [] => []
  | stmt :: rest => stmt.unspanned :: unspannedAll rest

end

end Stmt

def FieldDef.unspanned (field : FieldDef) : FieldDef :=
  { field with type := field.type.unspanned, span := {} }

def ParamDef.unspanned (param : ParamDef) : ParamDef :=
  { param with type := param.type.unspanned, span := {} }

def MethodDef.unspanned (method : MethodDef) : MethodDef :=
  { method with
    returnType := method.returnType.unspanned
    params := method.params.map ParamDef.unspanned
    body := Stmt.unspannedAll method.body
    span := {} }

def ClassDef.unspanned (cls : ClassDef) : ClassDef :=
  { cls with
    fields := cls.fields.map FieldDef.unspanned
    methods := cls.methods.map MethodDef.unspanned
    span := {} }

def Package.unspanned (package : Package) : Package :=
  { package with classes := package.classes.map ClassDef.unspanned, span := {} }

def Tree.unspanned : Tree → Tree
  | package p => package p.unspanned
  | cls c => cls c.unspanned
  | field f => field f.unspanned
  | method m => method m.unspanned
  | param p => param p.unspanned
  | stmt s => stmt s.unspanned
  | expr e => expr e.unspanned
  | ref r => ref r.unspanned

section Unspanned

variable {span : Span}

theorem settle_unspanned {α : Type} [Spanned α] {unspanned : α → α} {node filled : α}
    (hwith : unspanned (Spanned.withSpan span filled) = unspanned filled)
    (hfilled : unspanned filled = unspanned node) :
    unspanned (settle span node filled) = unspanned node := by
  unfold settle
  split
  · exact hwith.trans hfilled
  · rfl

theorem TypeExpr.unspanned_withSpan (type : TypeExpr) :
    (type.withSpan span).unspanned = type.unspanned := by
  cases type <;> rfl

theorem Reference.unspanned_withSpan (ref : Reference) :
    (ref.withSpan span).unspanned = ref.unspanned := by
  cases ref <;> rfl

theorem Expr.unspanned_withSpan (expr : Expr) : (expr.withSpan span).unspanned = expr.unspanned := by
  cases expr <;> rfl

theorem Stmt.unspanned_withSpan (stmt : Stmt) : (stmt.withSpan span).unspanned = stmt.unspanned := by
  cases stmt <;> rfl

theorem TypeExpr.unspanned_fillParts (type : TypeExpr) :
    (type.fillParts span).unspanned = type.unspanned := by
  induction type with
  | array own elem ih =>
    rw [fillParts, unspanned, settle_unspanned (elem.fillParts span).unspanned_withSpan ih, unspanned]
  | _ => rfl

theorem TypeExpr.unspanned_fill (type : TypeExpr) : (type.fill span).unspanned = type.unspanned :=
  settle_unspanned (unspanned_withSpan _) type.unspanned_fillParts

theorem Ident.unspanned_fill (name : Ident) : (name.fill span).unspanned = name.unspanned :=
  settle_unspanned rfl rfl

theorem Reference.unspanned_fillParts (ref : Reference) :
    (ref.fillParts span).unspanned = ref.unspanned := by
  induction ref with
  | this => rfl
  | ident annot name => rw [fillParts, unspanned, name.unspanned_fill, unspanned]
  | member annot owner name ih =>
    rw [fillParts, unspanned, settle_unspanned (unspanned_withSpan _) ih, name.unspanned_fill,
      unspanned]

theorem Reference.unspanned_fill (ref : Reference) : (ref.fill span).unspanned = ref.unspanned :=
  settle_unspanned (unspanned_withSpan _) ref.unspanned_fillParts

namespace Expr

mutual

/-- Filling the parts of an expression changes spans only. -/
theorem unspanned_fillParts (expr : Expr) : (expr.fillParts span).unspanned = expr.unspanned := by
  match expr with
  | int .. | bool .. | null .. => rw [fillParts]
  | unary annot op operand => rw [fillParts, unspanned, operand.unspanned_settle, unspanned]
  | binary annot op left right =>
    rw [fillParts, unspanned, left.unspanned_settle, right.unspanned_settle, unspanned]
  | ternary annot cond onTrue onFalse =>
    rw [fillParts, unspanned, cond.unspanned_settle, onTrue.unspanned_settle,
      onFalse.unspanned_settle, unspanned]
  | ref annot target => rw [fillParts, unspanned, target.unspanned_fill, unspanned]
  | index annot target subscript =>
    rw [fillParts, unspanned, target.unspanned_fill, subscript.unspanned_settle, unspanned]
  | call annot callee args =>
    rw [fillParts, unspanned, callee.unspanned_fill, unspanned_fillAll args, unspanned]
  | newObject annot cls => rw [fillParts, unspanned, cls.unspanned_fill, unspanned]
  | newArray annot elem size =>
    rw [fillParts, unspanned, elem.unspanned_fill, size.unspanned_settle, unspanned]

theorem unspanned_settle (expr : Expr) :
    (settle span expr (expr.fillParts span)).unspanned = expr.unspanned :=
  settle_unspanned (unspanned_withSpan _) expr.unspanned_fillParts

theorem unspanned_fillAll (exprs : List Expr) :
    unspannedAll (fillAll span exprs) = unspannedAll exprs := by
  match exprs with
  | [] => rfl
  | expr :: rest =>
    rw [fillAll, unspannedAll, expr.unspanned_settle, unspanned_fillAll rest, unspannedAll]

end

theorem unspanned_fill (expr : Expr) : (expr.fill span).unspanned = expr.unspanned :=
  expr.unspanned_settle

theorem unspanned_fillOption (expr : Option Expr) :
    (expr.map (fill span)).map unspanned = expr.map unspanned := by
  cases expr with
  | none => rfl
  | some expr => rw [Option.map_some, Option.map_some, expr.unspanned_fill, Option.map_some]

end Expr

theorem LocalDef.unspanned_fill (var : LocalDef) : (var.fill span).unspanned = var.unspanned := by
  refine settle_unspanned rfl ?_
  rw [unspanned, var.type.unspanned_fill, unspanned]

namespace Stmt

mutual

/-- Filling the parts of a statement changes spans only. -/
theorem unspanned_fillParts (stmt : Stmt) : (stmt.fillParts span).unspanned = stmt.unspanned := by
  match stmt with
  | block own stmts => rw [fillParts, unspanned, unspanned_fillAll stmts, unspanned]
  | varDecl own var init =>
    rw [fillParts, unspanned, var.unspanned_fill, init.unspanned_fill, unspanned]
  | assign own target value =>
    rw [fillParts, unspanned, target.unspanned_fill, value.unspanned_fill, unspanned]
  | indexAssign own target subscript value =>
    rw [fillParts, unspanned, target.unspanned_fill, subscript.unspanned_fill,
      value.unspanned_fill, unspanned]
  | call own callee args =>
    rw [fillParts, unspanned, callee.unspanned_fill, Expr.unspanned_fillAll, unspanned]
  | .return own value => rw [fillParts, unspanned, Expr.unspanned_fillOption, unspanned]
  | ifElse own cond onTrue onFalse =>
    rw [fillParts, unspanned, cond.unspanned_fill, onTrue.unspanned_settle,
      unspanned_fillOption onFalse, unspanned]
  | .while own cond body =>
    rw [fillParts, unspanned, cond.unspanned_fill, body.unspanned_settle, unspanned]
  | .for own init cond update body =>
    rw [fillParts, unspanned, unspanned_fillOption init, Expr.unspanned_fillOption,
      unspanned_fillOption update, body.unspanned_settle, unspanned]

theorem unspanned_settle (stmt : Stmt) :
    (settle span stmt (stmt.fillParts span)).unspanned = stmt.unspanned :=
  settle_unspanned (unspanned_withSpan _) stmt.unspanned_fillParts

theorem unspanned_fillOption (stmt : Option Stmt) :
    unspannedOption (fillOption span stmt) = unspannedOption stmt := by
  match stmt with
  | none => rfl
  | some stmt => rw [fillOption, unspannedOption, stmt.unspanned_settle, unspannedOption]

theorem unspanned_fillAll (stmts : List Stmt) :
    unspannedAll (fillAll span stmts) = unspannedAll stmts := by
  match stmts with
  | [] => rfl
  | stmt :: rest =>
    rw [fillAll, unspannedAll, stmt.unspanned_settle, unspanned_fillAll rest, unspannedAll]

end

end Stmt

theorem FieldDef.unspanned_fillParts (field : FieldDef) :
    (field.fillParts span).unspanned = field.unspanned := by
  rw [fillParts, unspanned, field.type.unspanned_fill, unspanned]

theorem ParamDef.unspanned_fillParts (param : ParamDef) :
    (param.fillParts span).unspanned = param.unspanned := by
  rw [fillParts, unspanned, param.type.unspanned_fill, unspanned]

theorem map_settle_unspanned {α : Type} [Spanned α] {unspanned parts : α → α}
    (hwith : ∀ node : α, unspanned (Spanned.withSpan span node) = unspanned node)
    (hparts : ∀ node, unspanned (parts node) = unspanned node) (nodes : List α) :
    (nodes.map fun node => settle span node (parts node)).map unspanned = nodes.map unspanned := by
  rw [List.map_map]
  exact List.map_congr_left fun node _ => settle_unspanned (hwith _) (hparts node)

theorem MethodDef.unspanned_fillParts (method : MethodDef) :
    (method.fillParts span).unspanned = method.unspanned := by
  rw [fillParts, unspanned, method.returnType.unspanned_fill, Stmt.unspanned_fillAll,
    map_settle_unspanned (fun _ => rfl) ParamDef.unspanned_fillParts, unspanned]

theorem ClassDef.unspanned_fillParts (cls : ClassDef) :
    (cls.fillParts span).unspanned = cls.unspanned := by
  rw [fillParts, unspanned, map_settle_unspanned (fun _ => rfl) FieldDef.unspanned_fillParts,
    map_settle_unspanned (fun _ => rfl) MethodDef.unspanned_fillParts, unspanned]

theorem Package.unspanned_fillParts (package : Package) :
    (package.fillParts span).unspanned = package.unspanned := by
  rw [fillParts, unspanned, map_settle_unspanned (fun _ => rfl) ClassDef.unspanned_fillParts,
    unspanned]

namespace Tree

theorem unspanned_withSpan (tree : Tree) : (tree.withSpan span).unspanned = tree.unspanned := by
  cases tree with
  | stmt stmt => exact congrArg Tree.stmt stmt.unspanned_withSpan
  | expr expr => exact congrArg Tree.expr expr.unspanned_withSpan
  | ref ref => exact congrArg Tree.ref ref.unspanned_withSpan
  | _ => rfl

/-- Filling the parts of a tree changes spans only. -/
theorem unspanned_fillParts (tree : Tree) : (tree.fillParts span).unspanned = tree.unspanned := by
  cases tree with
  | package package => exact congrArg Tree.package package.unspanned_fillParts
  | cls cls => exact congrArg Tree.cls cls.unspanned_fillParts
  | field field => exact congrArg Tree.field field.unspanned_fillParts
  | method method => exact congrArg Tree.method method.unspanned_fillParts
  | param param => exact congrArg Tree.param param.unspanned_fillParts
  | stmt stmt => exact congrArg Tree.stmt stmt.unspanned_fillParts
  | expr expr => exact congrArg Tree.expr expr.unspanned_fillParts
  | ref ref => exact congrArg Tree.ref ref.unspanned_fillParts

/-- Putting a tree on a line changes nothing but positions. -/
theorem unspanned_placeAt (tree : Tree) (line : Nat) :
    (tree.placeAt line).unspanned = tree.unspanned := by
  rw [placeAt_eq, unspanned_withSpan, unspanned_fillParts]

end Tree

end Unspanned

end SmallJava
