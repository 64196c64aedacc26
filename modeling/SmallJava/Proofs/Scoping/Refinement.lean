import SmallJava.Proofs.Scoping.Layers

namespace SmallJava

/-- What can be done to the names in force. -/
inductive ScopeOp where
  | declareClass (name : String) (x : SymbolId)
  | enterClass (members : Dict String SymbolId)
  | enterMethod
  | push
  | pop
  | declareLocal (name : String) (x : SymbolId) (span : Span)

namespace ScopeOp

/-- What an operation answers. -/
inductive Answer where
  | done
  /-- The name of a class is taken. -/
  | taken
  /-- A variable is rejected. -/
  | rejected (fatal : Diagnostic)
  deriving DecidableEq

/-- Performs operations one after the other and collects the answers. -/
def run {σ : Type} (step : σ → ScopeOp → Answer × σ) (state : σ) : List ScopeOp → List Answer × σ
  | [] => ([], state)
  | op :: ops =>
    let next := step state op
    let rest := run step next.2 ops
    (next.1 :: rest.1, rest.2)

end ScopeOp

/-- The names in force as a stack of maps, one for each block. A block that is not there cannot
    be left, so one block remains at all times. -/
structure NameStack where
  classes : Layer := []
  members : Dict String SymbolId := .empty
  inner : Layer := []
  outer : Layers := []

namespace NameStack

/-- The blocks, the innermost first. -/
def layers (stack : NameStack) : Layers := stack.inner :: stack.outer

def depth (stack : NameStack) : Nat := stack.outer.length

def class? (stack : NameStack) (name : String) : Option SymbolId := stack.classes.lookup name

/-- The blocks are searched from the innermost outwards, then the members, then the classes. -/
def lookup (stack : NameStack) (name : String) : Option Resolved :=
  ((stack.layers.find? name).map .localVar).or
    (((stack.members.get? name).map .member).or ((stack.class? name).map .cls))

def enterMethod (stack : NameStack) : NameStack := { stack with inner := [], outer := [] }

/-- The innermost block goes. If there is no other, it becomes empty. -/
def pop (stack : NameStack) : NameStack :=
  match stack.outer with
  | [] => { stack with inner := [] }
  | layer :: outer => { stack with inner := layer, outer }

/-- A name that is taken changes nothing, neither among the classes nor in the innermost block. -/
def step (stack : NameStack) : ScopeOp → ScopeOp.Answer × NameStack
  | .declareClass name x =>
    match stack.classes.lookup name with
    | some _ => (.taken, stack)
    | none => (.done, { stack with classes := (name, x) :: stack.classes })
  | .enterClass members => (.done, { stack with members }.enterMethod)
  | .enterMethod => (.done, stack.enterMethod)
  | .push => (.done, { stack with inner := [], outer := stack.layers })
  | .pop => (.done, stack.pop)
  | .declareLocal name x span =>
    match stack.inner.lookup name with
    | some _ => (.rejected (.duplicateVariable name span), stack)
    | none => (.done, { stack with inner := (name, x) :: stack.inner })

theorem layers_pop (stack : NameStack) : stack.pop.layers = stack.layers.pop := by
  unfold pop layers
  cases stack.outer <;> rfl

theorem members_pop (stack : NameStack) : stack.pop.members = stack.members := by
  unfold pop
  cases stack.outer <;> rfl

theorem class?_pop (stack : NameStack) (name : String) :
    stack.pop.class? name = stack.class? name := by
  unfold pop
  cases stack.outer <;> rfl

end NameStack

namespace Scope

/-- Performs one operation. -/
def step {δ : Type} [Depth δ] [DecidableEq δ] [LT δ] [DecidableLT δ] (scope : Scope δ) :
    ScopeOp → ScopeOp.Answer × Scope δ
  | .declareClass name x =>
    match scope.declareClass? name x with
    | none => (.taken, scope)
    | some scope => (.done, scope)
  | .enterClass members => (.done, scope.enterClass members)
  | .enterMethod => (.done, scope.enterMethod)
  | .push => (.done, scope.push)
  | .pop => (.done, scope.pop)
  | .declareLocal name x span =>
    match scope.declareLocal name x span with
    | .error fatal => (.rejected fatal, scope)
    | .ok scope => (.done, scope)

variable {scope : Scope} {stack : NameStack}

/-- The scope has the names of the stack. -/
structure Refines (scope : Scope) (stack : NameStack) : Prop where
  represents : scope.Represents stack.layers
  members : scope.members = stack.members
  classes : ∀ name, scope.class? name = stack.class? name

/-- Declaring a variable concerns neither members nor classes. -/
theorem of_declareLocal {scope' : Scope} {name : String} {x : SymbolId} {span : Span}
    (hdeclare : scope.declareLocal name x span = .ok scope') :
    scope'.members = scope.members ∧ scope'.classes = scope.classes := by
  unfold declareLocal at hdeclare
  split at hdeclare
  next =>
    cases hdeclare
    exact ⟨rfl, rfl⟩
  next =>
    split at hdeclare
    next => cases hdeclare
    next =>
      cases hdeclare
      exact ⟨rfl, rfl⟩

namespace Refines

theorem initial : Refines {} {} where
  represents := represents_enterMethod {}
  members := rfl
  classes := fun _ => rfl

theorem depth (h : scope.Refines stack) : scope.depth = stack.depth :=
  (Nat.add_right_cancel h.represents.depth).symm

/-- A name means what the stack says. -/
theorem lookup (h : scope.Refines stack) (name : String) : scope.lookup name = stack.lookup name := by
  unfold Scope.lookup NameStack.lookup
  rw [← h.represents.find? name, ← h.members, ← h.classes name]
  cases scope.locals.get? name with
  | some entry => rfl
  | none => cases scope.members.get? name <;> rfl

/-- A class is rejected if the stack has its name, and added to both otherwise. -/
theorem declareClass (h : scope.Refines stack) (name : String) (x : SymbolId) :
    (scope.step (.declareClass name x)).1 = (stack.step (.declareClass name x)).1 ∧
      (scope.step (.declareClass name x)).2.Refines (stack.step (.declareClass name x)).2 := by
  have htaken : scope.classes.contains name = (stack.classes.lookup name).isSome :=
    congrArg Option.isSome (h.classes name)
  simp only [Scope.step, NameStack.step, Scope.declareClass?, htaken]
  cases stack.classes.lookup name with
  | some y => exact ⟨rfl, h⟩
  | none =>
    refine ⟨rfl, ⟨h.represents.depth, h.represents.locals, h.represents.shadowed⟩, h.members, ?_⟩
    intro other
    change (scope.classes.insert name x).get? other = List.lookup other ((name, x) :: stack.classes)
    rw [Dict.get?_insert, List.lookup_cons]
    by_cases heq : other = name
    · rw [if_pos heq, beq_iff_eq.2 heq]
    · rw [if_neg heq, beq_false_of_ne heq]
      exact h.classes other

/-- A variable is rejected if the innermost block of the stack has its name, and added to both
    otherwise. -/
theorem declareLocal (h : scope.Refines stack) (name : String) (x : SymbolId) (span : Span) :
    (scope.step (.declareLocal name x span)).1 = (stack.step (.declareLocal name x span)).1 ∧
      (scope.step (.declareLocal name x span)).2.Refines
        (stack.step (.declareLocal name x span)).2 := by
  have hdeclare := h.represents.declareLocal name x span
  simp only [Scope.step, NameStack.step]
  cases hlookup : stack.inner.lookup name with
  | some y =>
    rw [hlookup] at hdeclare
    rw [hdeclare]
    exact ⟨rfl, h⟩
  | none =>
    rw [hlookup] at hdeclare
    obtain ⟨scope', hok, hrepresents⟩ := hdeclare
    obtain ⟨hmembers, hclasses⟩ := of_declareLocal hok
    rw [hok]
    refine ⟨rfl, hrepresents, hmembers.trans h.members, fun other => ?_⟩
    exact (congrArg (Dict.get? · other) hclasses).trans (h.classes other)

/-- An operation is answered as by the stack, and the names stay those of the stack. -/
theorem step (h : scope.Refines stack) (op : ScopeOp) :
    (scope.step op).1 = (stack.step op).1 ∧ (scope.step op).2.Refines (stack.step op).2 := by
  cases op with
  | declareClass name x => exact h.declareClass name x
  | enterClass members => exact ⟨rfl, represents_enterMethod _, rfl, h.classes⟩
  | enterMethod => exact ⟨rfl, represents_enterMethod _, h.members, h.classes⟩
  | push => exact ⟨rfl, h.represents.push, h.members, h.classes⟩
  | pop =>
    refine ⟨rfl, ?_, h.members.trans stack.members_pop.symm,
      fun name => (h.classes name).trans (stack.class?_pop name).symm⟩
    change scope.pop.Represents stack.pop.layers
    rw [stack.layers_pop]
    exact h.represents.pop
  | declareLocal name x span => exact h.declareLocal name x span

end Refines

end Scope

end SmallJava
