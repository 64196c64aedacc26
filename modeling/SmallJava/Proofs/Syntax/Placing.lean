import SmallJava.Syntax.Build
import SmallJava.Proofs.Syntax.Unspanned

namespace SmallJava

namespace Node

/-- The node at an address: which part to take at each level. -/
def at? : Node → List Nat → Option Node
  | node, [] => some node
  | node, i :: rest => node.children[i]?.bind fun part => part.at? rest

def spanAt? (node : Node) (address : List Nat) : Option Span := (node.at? address).map span

/-- Neither the node at the address nor any node on the way to it has a position. What the root has
    does not matter. -/
def Loose (node : Node) (address : List Nat) : Prop :=
  ∀ upTo, upTo ≠ [] → upTo <+: address → node.spanAt? upTo = some {}

/-- Every node has a position. -/
def Placed (node : Node) : Prop := ∀ address, node.spanAt? address ≠ some {}

/-- The node is made of nodes without a position of their own, and of trees that were put on lines. -/
inductive Built : Node → Prop
  | make {node} (hspan : node.span = {}) (hparts : ∀ part ∈ node.children, part.Built) : Built node
  | place {tree} (htree : Built (.tree tree)) (line : Nat) : Built (.tree (tree.placeAt line))

variable {node : Node} {span : Span} {i : Nat} {address : List Nat}

theorem spanAt?_nil : node.spanAt? [] = some node.span := rfl

theorem spanAt?_cons :
    node.spanAt? (i :: address) = node.children[i]?.bind fun part => part.spanAt? address := by
  unfold spanAt?
  rw [at?, Option.map_bind]
  rfl

theorem loose_nil : node.Loose [] := fun _ hne hpre => absurd (List.prefix_nil.1 hpre) hne

/-- A node below is loose if the child on the way has no span and the node is loose below it. -/
theorem loose_cons : node.Loose (i :: address) ↔
    ∃ part, node.children[i]? = some part ∧ part.span = {} ∧ part.Loose address := by
  constructor
  · intro h
    have hfirst := h [i] (by simp) (by simp)
    rw [spanAt?_cons] at hfirst
    obtain ⟨part, hpart, hspan⟩ := Option.bind_eq_some_iff.1 hfirst
    refine ⟨part, hpart, Option.some.inj hspan, fun upTo _ hpre => ?_⟩
    have hlater := h (i :: upTo) (by simp) (by simpa using hpre)
    rwa [spanAt?_cons, hpart, Option.bind_some] at hlater
  · rintro ⟨part, hpart, hspan, hloose⟩ upTo hne hpre
    obtain ⟨j, later, rfl⟩ := List.exists_cons_of_ne_nil hne
    obtain ⟨rfl, hlater⟩ := List.cons_prefix_cons.1 hpre
    rw [spanAt?_cons, hpart, Option.bind_some]
    by_cases hnil : later = []
    · rw [hnil, spanAt?_nil, hspan]
    · exact hloose later hnil hlater

/-- A node is placed if it has a span and all its children are placed. -/
theorem placed_iff : node.Placed ↔ node.span ≠ {} ∧ ∀ part ∈ node.children, part.Placed := by
  constructor
  · intro h
    refine ⟨fun hspan => h [] (congrArg some hspan), fun part hmem address hspan => ?_⟩
    obtain ⟨i, hi⟩ := List.getElem?_of_mem hmem
    apply h (i :: address)
    rw [spanAt?_cons, hi, Option.bind_some, hspan]
  · rintro ⟨hroot, hparts⟩ (_ | ⟨i, rest⟩) hspan
    · exact hroot (Option.some.inj hspan)
    · rw [spanAt?_cons] at hspan
      obtain ⟨part, hpart, hspan⟩ := Option.bind_eq_some_iff.1 hspan
      exact hparts part (List.mem_of_getElem? hpart) rest hspan

/-! The positions in a node that was filled. -/

/-- What is loose below a node is filled with its parts. -/
theorem spanAt?_withSpan_cons (node : Node) : ((node.fillParts span).withSpan span).spanAt? (i :: address) =
    node.children[i]?.bind fun part => (part.fill span).spanAt? address := by
  rw [spanAt?_cons, children_withSpan, children_fillParts, List.getElem?_map, Option.bind_map]
  rfl

theorem spanAt?_fill_of_loose (hspan : node.span = {}) (h : node.Loose address) :
    (node.fill span).spanAt? address = some span := by
  induction address generalizing node with
  | nil => rw [spanAt?_nil, fill_of_unplaced hspan, span_withSpan]
  | cons i rest ih =>
    obtain ⟨part, hpart, hspan', hloose⟩ := loose_cons.1 h
    rw [fill_of_unplaced hspan, spanAt?_withSpan_cons, hpart, Option.bind_some]
    exact ih hspan' hloose

/-- A node that is not loose keeps its span. -/
theorem spanAt?_fill_of_kept (h : node.span = {} → ¬node.Loose address) :
    (node.fill span).spanAt? address = node.spanAt? address := by
  by_cases hspan : node.span = {}
  · induction address generalizing node with
    | nil => exact absurd loose_nil (h hspan)
    | cons i rest ih =>
      rw [fill_of_unplaced hspan, spanAt?_withSpan_cons, spanAt?_cons]
      cases hpart : node.children[i]? with
      | none => rfl
      | some part =>
        rw [Option.bind_some, Option.bind_some]
        by_cases hspan' : part.span = {}
        · exact ih (fun _ hloose => h hspan (loose_cons.2 ⟨part, hpart, hspan', hloose⟩)) hspan'
        · rw [fill_of_placed hspan']
  · rw [fill_of_placed hspan]

theorem span_fill_ne (hspan : span ≠ {}) : (node.fill span).span ≠ {} := by
  by_cases hunplaced : node.span = {}
  · rw [fill_of_unplaced hunplaced, span_withSpan]
    exact hspan
  · rw [fill_of_placed hunplaced]
    exact hunplaced

theorem Placed.withSpan (h : node.Placed) (hspan : span ≠ {}) : (node.withSpan span).Placed := by
  obtain ⟨-, hparts⟩ := placed_iff.1 h
  refine placed_iff.2 ⟨?_, ?_⟩
  · rwa [span_withSpan]
  · rwa [children_withSpan]

end Node

theorem Span.atLine_ne (line : Nat) : Span.atLine line ≠ {} := by simp [Span.atLine]

namespace Tree

variable {tree : Tree} {line : Nat} {span : Span}

theorem node_placeAt (tree : Tree) (line : Nat) : Node.tree (tree.placeAt line) =
    ((Node.tree tree).fillParts (.atLine line)).withSpan (.atLine line) := by
  rw [placeAt_eq]
  rfl

/-- The parts of a tree that stands on a line all have positions. -/
theorem fillParts_placeAt : (tree.placeAt line).fillParts span = tree.placeAt line := by
  refine fillParts_of_placed fun part hmem => ?_
  rw [placeAt_eq, children_withSpan, children_fillParts] at hmem
  obtain ⟨part, -, rfl⟩ := List.mem_map.1 hmem
  exact Node.span_fill_ne (Span.atLine_ne line)

end Tree

/-- A built node has positions below every position, and everywhere once it is put on a line. -/
theorem Node.Built.placed {node : Node} (h : node.Built) :
    (node.span ≠ {} → node.Placed) ∧
      ∀ span : Span, span ≠ {} → ((node.fillParts span).withSpan span).Placed := by
  induction h with
  | make hunplaced hparts ih =>
    refine ⟨fun hplaced => absurd hunplaced hplaced, fun span hspan => ?_⟩
    refine placed_iff.2 ⟨by rwa [span_withSpan], ?_⟩
    rw [children_withSpan, children_fillParts]
    intro part hmem
    obtain ⟨part, hpart, rfl⟩ := List.mem_map.1 hmem
    obtain ⟨hkept, hfilled⟩ := ih part hpart
    by_cases hunplaced' : part.span = {}
    · rw [fill_of_unplaced hunplaced']
      exact hfilled span hspan
    · rw [fill_of_placed hunplaced']
      exact hkept hunplaced'
  | @place tree htree line ih =>
    have hplaced : (Node.tree (tree.placeAt line)).Placed := by
      rw [Tree.node_placeAt]
      exact ih.2 _ (Span.atLine_ne line)
    refine ⟨fun _ => hplaced, fun span hspan => ?_⟩
    rw [fillParts, Tree.fillParts_placeAt]
    exact hplaced.withSpan hspan

/-! What the shorthands of the library spell is built. -/

/-- A path made from its text is built. -/
theorem Node.Built.ofPath (path : String) : (Node.tree (.ref (.ofPath path))).Built := by
  have hname (name : String) : (Node.name { name }).Built := .make rfl (List.forall_mem_nil _)
  have hfold (segments : List String) (owner : Reference) (howner : (Node.tree (.ref owner)).Built) :
      (Node.tree (.ref (segments.foldl (fun owner segment => .member {} owner { name := segment })
        owner))).Built := by
    induction segments generalizing owner with
    | nil => exact howner
    | cons segment rest ih =>
      refine ih _ (.make rfl ?_)
      simpa [children, Tree.children, Reference.children] using ⟨howner, hname segment⟩
  unfold Reference.ofPath
  split
  next => exact .make rfl (List.forall_mem_nil _)
  next head rest _ =>
    apply hfold
    split
    · exact .make rfl (List.forall_mem_nil _)
    · refine .make rfl ?_
      simpa [children, Tree.children, Reference.children] using hname head

theorem Node.Built.println {arg : Expr} (harg : (Node.tree (.expr arg)).Built) :
    (Node.tree (.stmt (.println arg))).Built := by
  refine .make rfl ?_
  simpa [children, Tree.children, Stmt.children, Stmt.println] using ⟨.ofPath _, harg⟩

/-- A main method made from built statements is built. -/
theorem Node.Built.main {body : List Stmt} (hbody : ∀ stmt ∈ body, (Node.tree (.stmt stmt)).Built) :
    (Node.tree (.method (.main body))).Built := by
  have hstring : (Node.type (.named {} "String")).Built := .make rfl (List.forall_mem_nil _)
  have hstrings : (Node.type (.array {} (.named {} "String"))).Built :=
    .make rfl (by simpa [children, TypeExpr.children] using hstring)
  have hparam : (Node.tree (.param { type := .array {} (.named {} "String"), name := "args" })).Built :=
    .make rfl (by simpa [children, Tree.children] using hstrings)
  have hvoid : (Node.type (.void {})).Built := .make rfl (List.forall_mem_nil _)
  refine .make rfl ?_
  simpa [children, Tree.children, MethodDef.main] using ⟨hvoid, hparam, hbody⟩

/-- How a tree stands that was put on a line. -/
structure Tree.PutOn (line : Nat) (before after : Tree) : Prop where
  same : after.unspanned = before.unspanned
  root : after.span = .atLine line
  moved : ∀ address, address ≠ [] → (Node.tree before).Loose address →
    (Node.tree after).spanAt? address = some (.atLine line)
  kept : ∀ address, address ≠ [] → ¬(Node.tree before).Loose address →
    (Node.tree after).spanAt? address = (Node.tree before).spanAt? address
  again : ∀ other, after.placeAt other = after.withSpan (.atLine other)
  built : (Node.tree before).Built → (Node.tree after).Placed

/-- Putting a tree on a line gives the line to its root and to what hangs on the root by nodes without
    positions, and changes nothing else. -/
theorem Tree.placeAt_putOn (line : Nat) (tree : Tree) : tree.PutOn line (tree.placeAt line) where
  same := tree.unspanned_placeAt line
  root := by
    change (Node.tree (tree.placeAt line)).span = _
    rw [node_placeAt, Node.span_withSpan]
  moved := by
    rintro (_ | ⟨i, rest⟩) hne hloose
    · exact absurd rfl hne
    · obtain ⟨part, hpart, hspan, hloose⟩ := Node.loose_cons.1 hloose
      rw [node_placeAt, Node.spanAt?_withSpan_cons, hpart, Option.bind_some]
      exact Node.spanAt?_fill_of_loose hspan hloose
  kept := by
    rintro (_ | ⟨i, rest⟩) hne hkept
    · exact absurd rfl hne
    · rw [node_placeAt, Node.spanAt?_withSpan_cons, Node.spanAt?_cons]
      cases hpart : (Node.tree tree).children[i]? with
      | none => rfl
      | some part =>
        rw [Option.bind_some, Option.bind_some]
        exact Node.spanAt?_fill_of_kept fun hspan hloose =>
          hkept (Node.loose_cons.2 ⟨part, hpart, hspan, hloose⟩)
  again other := by rw [placeAt_eq other, fillParts_placeAt]
  built hbuilt := by
    rw [node_placeAt]
    exact hbuilt.placed.2 _ (Span.atLine_ne line)

end SmallJava
