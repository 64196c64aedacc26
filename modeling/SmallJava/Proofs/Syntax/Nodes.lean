import SmallJava.Syntax.Placement

namespace SmallJava

/-- A tree that can be put on a source line. -/
inductive Tree where
  | package (package : Package)
  | cls (cls : ClassDef)
  | field (field : FieldDef)
  | method (method : MethodDef)
  | param (param : ParamDef)
  | stmt (stmt : Stmt)
  | expr (expr : Expr)
  | ref (ref : Reference)

/-- A node of a tree. Local variables, written types and names are nodes too, but none that is put
    on a line by itself. -/
inductive Node where
  | tree (tree : Tree)
  | var (var : LocalDef)
  | type (type : TypeExpr)
  | name (name : Ident)

namespace Tree

def span : Tree → Span
  | package p => p.span
  | cls c => c.span
  | field f => f.span
  | method m => m.span
  | param p => p.span
  | stmt s => s.span
  | expr e => e.span
  | ref r => r.annot.span

def withSpan (span : Span) : Tree → Tree
  | package p => package { p with span }
  | cls c => cls { c with span }
  | field f => field { f with span }
  | method m => method { m with span }
  | param p => param { p with span }
  | stmt s => stmt (s.withSpan span)
  | expr e => expr (e.withSpan span)
  | ref r => ref (r.withSpan span)

def fillParts (span : Span) : Tree → Tree
  | package p => package (p.fillParts span)
  | cls c => cls (c.fillParts span)
  | field f => field (f.fillParts span)
  | method m => method (m.fillParts span)
  | param p => param (p.fillParts span)
  | stmt s => stmt (s.fillParts span)
  | expr e => expr (e.fillParts span)
  | ref r => ref (r.fillParts span)

/-- The tree on a source line. -/
def placeAt (line : Nat) : Tree → Tree
  | package p => package (SmallJava.placeAt line p)
  | cls c => cls (SmallJava.placeAt line c)
  | field f => field (SmallJava.placeAt line f)
  | method m => method (SmallJava.placeAt line m)
  | param p => param (SmallJava.placeAt line p)
  | stmt s => stmt (SmallJava.placeAt line s)
  | expr e => expr (SmallJava.placeAt line e)
  | ref r => ref (SmallJava.placeAt line r)

theorem placeAt_eq (line : Nat) (tree : Tree) :
    tree.placeAt line = (tree.fillParts (.atLine line)).withSpan (.atLine line) := by
  cases tree <;> rfl

end Tree

namespace Node

def span : Node → Span
  | tree t => t.span
  | var v => v.span
  | type t => t.span
  | name n => n.span

def withSpan (span : Span) : Node → Node
  | tree t => tree (t.withSpan span)
  | var v => var { v with span }
  | type t => type (t.withSpan span)
  | name n => name { n with span }

instance : Spanned Node := ⟨span, withSpan⟩

def fillParts (span : Span) : Node → Node
  | tree t => tree (t.fillParts span)
  | var v => var { v with type := v.type.fill span }
  | type t => type (t.fillParts span)
  | name n => name n

/-- The node with a position, and its parts with it, unless it has one. -/
def fill (span : Span) (node : Node) : Node := settle span node (node.fillParts span)

variable {span : Span} {node : Node}

theorem fill_of_unplaced (h : node.span = {}) :
    node.fill span = (node.fillParts span).withSpan span := by
  unfold fill settle
  exact if_pos (by simp [Spanned.span, h, Span.isUnplaced])

theorem fill_of_placed (h : node.span ≠ {}) : node.fill span = node := by
  unfold fill settle
  exact if_neg (by simpa [Spanned.span, Span.isUnplaced] using h)

/-- A node with another span has this span. -/
theorem span_withSpan : (node.withSpan span).span = span := by
  cases node with
  | tree tree =>
    cases tree with
    | stmt stmt => cases stmt <;> rfl
    | expr expr => cases expr <;> rfl
    | ref ref => cases ref <;> rfl
    | _ => rfl
  | type type => cases type <;> rfl
  | _ => rfl

end Node

/-- What settles as a node settles as what it is. -/
theorem settle_node {α : Type} [Spanned α] (make : α → Node) {span : Span} {node filled : α}
    (hspan : (make node).span = Spanned.span node)
    (hwith : (make filled).withSpan span = make (Spanned.withSpan span filled)) :
    settle span (make node) (make filled) = make (settle span node filled) := by
  unfold settle
  rw [apply_ite make]
  change (if (make node).span.isUnplaced then (make filled).withSpan span else make node) = _
  rw [hspan, hwith]

/-! The nodes right below a node, in the order in which they are written. -/

def TypeExpr.children : TypeExpr → List Node
  | .array _ elem => [.type elem]
  | _ => []

def Reference.children : Reference → List Node
  | .this _ => []
  | .ident _ name => [.name name]
  | .member _ owner name => [.tree (.ref owner), .name name]

def Expr.children : Expr → List Node
  | .int _ _ | .bool _ _ | .null _ => []
  | .unary _ _ operand => [.tree (.expr operand)]
  | .binary _ _ left right => [.tree (.expr left), .tree (.expr right)]
  | .ternary _ cond onTrue onFalse =>
    [.tree (.expr cond), .tree (.expr onTrue), .tree (.expr onFalse)]
  | .ref _ target => [.tree (.ref target)]
  | .index _ target subscript => [.tree (.ref target), .tree (.expr subscript)]
  | .call _ callee args => .tree (.ref callee) :: args.map fun arg => .tree (.expr arg)
  | .newObject _ cls => [.name cls]
  | .newArray _ elem size => [.type elem, .tree (.expr size)]

def Stmt.children : Stmt → List Node
  | .block _ stmts => stmts.map fun stmt => .tree (.stmt stmt)
  | .varDecl _ var init => [.var var, .tree (.expr init)]
  | .assign _ target value => [.tree (.ref target), .tree (.expr value)]
  | .indexAssign _ target subscript value =>
    [.tree (.ref target), .tree (.expr subscript), .tree (.expr value)]
  | .call _ callee args => .tree (.ref callee) :: args.map fun arg => .tree (.expr arg)
  | .return _ value => value.toList.map fun expr => .tree (.expr expr)
  | .ifElse _ cond onTrue onFalse =>
    .tree (.expr cond) :: .tree (.stmt onTrue) ::
      onFalse.toList.map fun stmt => .tree (.stmt stmt)
  | .while _ cond body => [.tree (.expr cond), .tree (.stmt body)]
  | .for _ init cond update body =>
    init.toList.map (fun stmt => .tree (.stmt stmt)) ++
      cond.toList.map (fun expr => .tree (.expr expr)) ++
        update.toList.map (fun stmt => .tree (.stmt stmt)) ++ [.tree (.stmt body)]

def Tree.children : Tree → List Node
  | package p => p.classes.map fun cls => .tree (.cls cls)
  | cls c =>
    c.fields.map (fun field => .tree (.field field)) ++
      c.methods.map fun method => .tree (.method method)
  | field f => [.type f.type]
  | method m =>
    .type m.returnType :: m.params.map (fun param => .tree (.param param)) ++
      m.body.map fun stmt => .tree (.stmt stmt)
  | param p => [.type p.type]
  | stmt s => s.children
  | expr e => e.children
  | ref r => r.children

def Node.children : Node → List Node
  | tree t => t.children
  | var v => [.type v.type]
  | type t => t.children
  | name _ => []

section Fill

variable {span : Span}

theorem Expr.fillAll_eq_map (exprs : List Expr) : Expr.fillAll span exprs = exprs.map (Expr.fill span) := by
  induction exprs with
  | nil => rfl
  | cons expr rest ih => rw [fillAll, ih, List.map_cons, Expr.fill]

theorem Expr.fill_eq :
    Expr.fill span = fun expr => settle span expr (expr.fillParts span) := rfl

theorem Stmt.fillAll_eq_map (stmts : List Stmt) :
    Stmt.fillAll span stmts = stmts.map fun stmt => settle span stmt (stmt.fillParts span) := by
  induction stmts with
  | nil => rfl
  | cons stmt rest ih => rw [fillAll, ih, List.map_cons]

theorem Stmt.fillOption_eq_map (stmt : Option Stmt) :
    Stmt.fillOption span stmt = stmt.map fun stmt => settle span stmt (stmt.fillParts span) := by
  cases stmt with
  | none => rfl
  | some stmt => rfl

namespace Node

theorem fill_cls (cls : ClassDef) :
    fill span (.tree (.cls cls)) = .tree (.cls (settle span cls (cls.fillParts span))) :=
  settle_node (fun cls => .tree (.cls cls)) rfl rfl

theorem fill_field (field : FieldDef) :
    fill span (.tree (.field field)) = .tree (.field (settle span field (field.fillParts span))) :=
  settle_node (fun field => .tree (.field field)) rfl rfl

theorem fill_method (method : MethodDef) :
    fill span (.tree (.method method)) =
      .tree (.method (settle span method (method.fillParts span))) :=
  settle_node (fun method => .tree (.method method)) rfl rfl

theorem fill_param (param : ParamDef) :
    fill span (.tree (.param param)) = .tree (.param (settle span param (param.fillParts span))) :=
  settle_node (fun param => .tree (.param param)) rfl rfl

theorem fill_stmt (stmt : Stmt) :
    fill span (.tree (.stmt stmt)) = .tree (.stmt (settle span stmt (stmt.fillParts span))) :=
  settle_node (fun stmt => .tree (.stmt stmt)) rfl rfl

theorem fill_expr (expr : Expr) : fill span (.tree (.expr expr)) = .tree (.expr (expr.fill span)) :=
  settle_node (fun expr => .tree (.expr expr)) rfl rfl

theorem fill_ref (ref : Reference) : fill span (.tree (.ref ref)) = .tree (.ref (ref.fill span)) :=
  settle_node (fun ref => .tree (.ref ref)) rfl rfl

theorem fill_var (var : LocalDef) : fill span (.var var) = .var (var.fill span) :=
  settle_node .var rfl rfl

theorem fill_type (type : TypeExpr) : fill span (.type type) = .type (type.fill span) :=
  settle_node .type rfl rfl

theorem fill_name (name : Ident) : fill span (.name name) = .name (name.fill span) :=
  settle_node .name rfl rfl

end Node

attribute [local simp] Node.fill_cls Node.fill_field Node.fill_method Node.fill_param Node.fill_stmt
  Node.fill_expr Node.fill_ref Node.fill_var Node.fill_type Node.fill_name Expr.fillAll_eq_map
  Stmt.fillAll_eq_map Stmt.fillOption_eq_map Option.toList_map Function.comp_def

/-! Giving a position to the parts of a node gives it to the nodes right below. -/

theorem TypeExpr.children_fillParts (type : TypeExpr) :
    (type.fillParts span).children = type.children.map (Node.fill span) := by
  cases type <;> simp [TypeExpr.fillParts, TypeExpr.children, TypeExpr.fill]

theorem Reference.children_fillParts (ref : Reference) :
    (ref.fillParts span).children = ref.children.map (Node.fill span) := by
  cases ref <;> simp [Reference.fillParts, Reference.children, Reference.fill]

theorem Expr.children_fillParts (expr : Expr) :
    (expr.fillParts span).children = expr.children.map (Node.fill span) := by
  cases expr <;> simp [Expr.fillParts, Expr.children, Expr.fill]

theorem Stmt.children_fillParts (stmt : Stmt) :
    (stmt.fillParts span).children = stmt.children.map (Node.fill span) := by
  cases stmt <;> simp [Stmt.fillParts, Stmt.children]

/-- Filling the parts of a tree fills each of its children. -/
theorem Tree.children_fillParts (tree : Tree) :
    (tree.fillParts span).children = tree.children.map (Node.fill span) := by
  cases tree with
  | stmt stmt => exact stmt.children_fillParts
  | expr expr => exact expr.children_fillParts
  | ref ref => exact ref.children_fillParts
  | _ =>
    simp [Tree.fillParts, Package.fillParts, ClassDef.fillParts, FieldDef.fillParts,
      MethodDef.fillParts, ParamDef.fillParts, Tree.children]

theorem Node.children_fillParts (node : Node) :
    (node.fillParts span).children = node.children.map (Node.fill span) := by
  cases node with
  | tree tree => exact tree.children_fillParts
  | type type => exact type.children_fillParts
  | var | name => simp [fillParts, children]

end Fill

/-! What is below a node does not depend on the position of the node. -/

theorem Tree.children_withSpan (tree : Tree) (span : Span) :
    (tree.withSpan span).children = tree.children := by
  cases tree with
  | stmt stmt => cases stmt <;> rfl
  | expr expr => cases expr <;> rfl
  | ref ref => cases ref <;> rfl
  | _ => rfl

theorem Node.children_withSpan (node : Node) (span : Span) :
    (node.withSpan span).children = node.children := by
  cases node with
  | tree tree => exact tree.children_withSpan span
  | type type => cases type <;> rfl
  | _ => rfl

section Placed

/-! A node whose parts have positions keeps them as they are. -/

variable {span : Span}

theorem settle_of_placed {α : Type} [Spanned α] {node filled : α} (h : Spanned.span node ≠ {}) :
    settle span node filled = node :=
  if_neg (by simpa [Span.isUnplaced] using h)

theorem map_settle_of_placed {α : Type} [Spanned α] {nodes : List α} {parts : α → α}
    (h : ∀ node ∈ nodes, Spanned.span node ≠ {}) :
    nodes.map (fun node => settle span node (parts node)) = nodes := by
  calc nodes.map (fun node => settle span node (parts node))
    _ = nodes.map id := List.map_congr_left fun node hmem => settle_of_placed (h node hmem)
    _ = nodes := List.map_id nodes

theorem map_settle_of_placed? {α : Type} [Spanned α] {node : Option α} {parts : α → α}
    (h : ∀ found ∈ node, Spanned.span found ≠ {}) :
    node.map (fun found => settle span found (parts found)) = node := by
  cases node with
  | none => rfl
  | some found => rw [Option.map_some, settle_of_placed (h found rfl)]

namespace Node

theorem span_cls (cls : ClassDef) : (tree (.cls cls)).span = Spanned.span cls := rfl

theorem span_field (field : FieldDef) : (tree (.field field)).span = Spanned.span field := rfl

theorem span_method (method : MethodDef) : (tree (.method method)).span = Spanned.span method := rfl

theorem span_param (param : ParamDef) : (tree (.param param)).span = Spanned.span param := rfl

theorem span_stmt (stmt : Stmt) : (tree (.stmt stmt)).span = Spanned.span stmt := rfl

theorem span_expr (expr : Expr) : (tree (.expr expr)).span = Spanned.span expr := rfl

theorem span_ref (ref : Reference) : (tree (.ref ref)).span = Spanned.span ref := rfl

theorem span_var (v : LocalDef) : (var v).span = Spanned.span v := rfl

theorem span_type (t : TypeExpr) : (type t).span = Spanned.span t := rfl

theorem span_name (n : Ident) : (name n).span = Spanned.span n := rfl

end Node

attribute [local simp] Node.span_cls Node.span_field Node.span_method Node.span_param Node.span_stmt
  Node.span_expr Node.span_ref Node.span_var Node.span_type Node.span_name settle_of_placed
  map_settle_of_placed map_settle_of_placed? List.forall_mem_append List.forall_mem_map
  Expr.fillAll_eq_map Expr.fill_eq Stmt.fillAll_eq_map Stmt.fillOption_eq_map

theorem Reference.fillParts_of_placed {ref : Reference} (h : ∀ node ∈ ref.children, node.span ≠ {}) :
    ref.fillParts span = ref := by
  cases ref <;> simp_all [children, fillParts, Ident.fill]

theorem Expr.fillParts_of_placed {expr : Expr} (h : ∀ node ∈ expr.children, node.span ≠ {}) :
    expr.fillParts span = expr := by
  cases expr <;>
    simp_all [-List.mem_map, children, fillParts, Reference.fill, Ident.fill, TypeExpr.fill]

theorem Stmt.fillParts_of_placed {stmt : Stmt} (h : ∀ node ∈ stmt.children, node.span ≠ {}) :
    stmt.fillParts span = stmt := by
  cases stmt <;>
    simp_all [-List.mem_map, -List.mem_append, children, fillParts, Reference.fill, LocalDef.fill]

/-- A tree whose children are placed is not changed. -/
theorem Tree.fillParts_of_placed {tree : Tree} (h : ∀ node ∈ tree.children, node.span ≠ {}) :
    tree.fillParts span = tree := by
  cases tree with
  | stmt stmt => exact congrArg Tree.stmt (Stmt.fillParts_of_placed h)
  | expr expr => exact congrArg Tree.expr (Expr.fillParts_of_placed h)
  | ref ref => exact congrArg Tree.ref (Reference.fillParts_of_placed h)
  | _ =>
    simp_all [-List.mem_map, -List.mem_append, children, fillParts, Package.fillParts, ClassDef.fillParts,
      FieldDef.fillParts, MethodDef.fillParts, ParamDef.fillParts, TypeExpr.fill]

end Placed

end SmallJava
