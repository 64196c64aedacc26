import Mathlib.Logic.Function.Basic
import SmallJava.Constant
import SmallJava.Machine.Step
import SmallJava.Proofs.Region.Instances
import SmallJava.Syntax.Stmt

namespace SmallJava

/-- What the parts of a running program share. -/
structure Store where
  /-- The values of the static fields. -/
  statics : SymbolId → Datum := fun _ => .null
  heap : List Datum := []
  /-- The values printed so far. -/
  output : List Datum := []

/-- Why an evaluation yields nothing: a fault, no more rounds, or a program that makes no
    sense. -/
inductive Stop where
  | fault (fault : Fault)
  | timeout
  | stuck

/-- Evaluation of a piece of a program. -/
abbrev Exec := EStateM Stop Store

/-- The values of the parameters and local variables of a method. -/
abbrev Valuation := SymbolId → Datum

/-- Every value but `false` holds. -/
def Datum.holds (d : Datum) : Bool := d != .ofBool false

namespace Exec

def fault {α : Type} (fault : Fault) : Exec α := throw (.fault fault)

def stuck {α : Type} : Exec α := throw .stuck

/-- The word at a place on the heap. -/
def load : Datum → Exec Datum
  | .number _ => stuck
  | .heap n => do
    match Machine.at? (← get).heap n with
    | some d => pure d
    | none => stuck

/-- Changes the word at a place on the heap. -/
def store (place d : Datum) : Exec Unit :=
  match place with
  | .number _ => stuck
  | .heap n => do
    let _ ← load place
    modify fun S => { S with heap := S.heap.set n.toNat d }

/-- An object that is there. -/
def object (d : Datum) : Exec Datum := if d = .null then fault .nullPointer else pure d

/-- The length of an array, which stands before its elements. -/
def length (array : Datum) : Exec Datum := do load ((← object array).offset (-1))

/-- The place of an element of an array. -/
def element (array index : Datum) : Exec Datum := do
  let length ← length array
  match index, length with
  | .number i, .number n =>
    if 0 ≤ i ∧ i < n then pure (array.offset i) else fault .indexOutOfBounds
  | _, _ => stuck

/-- Adds a block of zeros after its header to the heap. -/
def alloc (header : List Datum) (words : Int) : Exec Datum := do
  let S ← get
  set { S with heap := S.heap ++ header ++ List.replicate words.toNat Datum.null }
  pure (.heap (S.heap.length + header.length))

def newArray : Datum → Exec Datum
  | .number n => if n < 0 then fault .negativeArraySize else alloc [.number n] n
  | .heap _ => stuck

def newObject (fields : Nat) : Exec Datum := alloc [.number (-1), .number fields] fields

def print (d : Datum) : Exec Unit := modify fun S => { S with output := S.output ++ [d] }

end Exec

open Exec

def UnaryOp.apply (op : UnaryOp) (operand : Datum) : Exec Datum :=
  match op with
  | .not => pure (.ofBool (operand == .null))
  | .neg =>
    match operand.word? with
    | some word => pure (.ofWord (-word))
    | none => stuck

/-- A binary operator on two values: what words give, or whether two values are the same. -/
def BinaryOp.apply (op : BinaryOp) (left right : Datum) : Exec Datum :=
  match op with
  | .eq => pure (.ofBool (left == right))
  | .ne => pure (.ofBool (left != right))
  | _ =>
    match left.word?, right.word? with
    | some a, some b =>
      match op.eval? a b with
      | some word => pure (.ofWord word)
      | none => fault .divideByZero
    | _, _ => stuck

/-- Where a piece of a program is evaluated. -/
structure Scene where
  sig : Signature
  this : Datum
  /-- How often each loop may test its condition. -/
  rounds : Nat
  /-- What the call of a method for an object does. -/
  invoke : SymbolId → Datum → List Datum → Exec (Option Datum)

namespace Scene

variable (sc : Scene) (env : Valuation)

/-- The place of a field within the objects of its class. -/
def fieldOffset (cls x : SymbolId) : Int := ((sc.sig.instanceFields cls).idxOf x : Nat)

/-- The value of a name, where `owner` yields the object that it may belong to. -/
def value (owner : Exec Datum) (name : Ident) : Exec Datum :=
  match name.binding with
  | none => stuck
  | some x =>
    match sc.sig.kind? x with
    | some .localVar | some .param => pure (env x)
    | some (.field cls modifiers) =>
      if modifiers.isStatic then return (← get).statics x
      else do load ((← object (← owner)).offset (sc.fieldOffset cls x))
    | some .arrayLength => do length (← owner)
    | _ => stuck

/-- Gives a name a value. The object that it may belong to comes first. -/
def assign (owner : Exec Datum) (name : Ident) (value : Exec Datum) : Exec Valuation :=
  match name.binding with
  | none => stuck
  | some x =>
    match sc.sig.kind? x with
    | some .localVar | some .param => return Function.update env x (← value)
    | some (.field cls modifiers) =>
      if modifiers.isStatic then do
        let d ← value
        modify fun S => { S with statics := Function.update S.statics x d }
        pure env
      else do
        let owner ← owner
        let d ← value
        store ((← object owner).offset (sc.fieldOffset cls x)) d
        pure env
    | _ => stuck

/-- Calls a method with its arguments. Only for a method that is not static there is an object,
    which comes after the arguments. -/
def call (owner : Exec Datum) (binding : Option SymbolId) (args : List Datum) :
    Exec (Option Datum) :=
  match binding with
  | none => stuck
  | some m =>
    match sc.sig.kind? m with
    | some (.method info) =>
      if info.modifiers.isStatic then sc.invoke m .null args
      else do sc.invoke m (← object (← owner)) args
    | _ => stuck

variable {sc env} {owner value : Exec Datum} {name : Ident} {x cls : SymbolId}
  {modifiers : Modifiers} {info : MethodInfo} {args : List Datum}

/-- The value of a variable is read without an effect. -/
theorem value_variable (hbound : name.binding = some x)
    (hkind : sc.sig.kind? x = some .localVar ∨ sc.sig.kind? x = some .param) :
    sc.value env owner name = pure (env x) := by
  unfold Scene.value
  obtain hkind | hkind := hkind
  · simp only [hbound, hkind]
  · simp only [hbound, hkind]

theorem value_static (hbound : name.binding = some x)
    (hkind : sc.sig.kind? x = some (.field cls modifiers)) (hstatic : modifiers.isStatic = true) :
    sc.value env owner name = (do return (← get).statics x) := by
  unfold Scene.value
  simp only [hbound, hkind, hstatic, if_true]

theorem value_field (hbound : name.binding = some x)
    (hkind : sc.sig.kind? x = some (.field cls modifiers)) (hstatic : modifiers.isStatic = false) :
    sc.value env owner name = (do load ((← object (← owner)).offset (sc.fieldOffset cls x))) := by
  unfold Scene.value
  simp [hbound, hkind, hstatic]

theorem value_length (hbound : name.binding = some x)
    (hkind : sc.sig.kind? x = some .arrayLength) :
    sc.value env owner name = (do length (← owner)) := by
  unfold Scene.value
  simp only [hbound, hkind]

theorem assign_variable (hbound : name.binding = some x)
    (hkind : sc.sig.kind? x = some .localVar ∨ sc.sig.kind? x = some .param) :
    sc.assign env owner name value = (do return Function.update env x (← value)) := by
  unfold Scene.assign
  obtain hkind | hkind := hkind
  · simp only [hbound, hkind]
  · simp only [hbound, hkind]

/-- An assignment to a static field changes the field and no variable. -/
theorem assign_static (hbound : name.binding = some x)
    (hkind : sc.sig.kind? x = some (.field cls modifiers)) (hstatic : modifiers.isStatic = true) :
    sc.assign env owner name value = (do
      let d ← value
      modify fun S => { S with statics := Function.update S.statics x d }
      pure env) := by
  unfold Scene.assign
  simp only [hbound, hkind, hstatic, if_true]

/-- An assignment to a field evaluates the object, then the value, and then changes the heap. -/
theorem assign_field (hbound : name.binding = some x)
    (hkind : sc.sig.kind? x = some (.field cls modifiers)) (hstatic : modifiers.isStatic = false) :
    sc.assign env owner name value = (do
      let owner ← owner
      let d ← value
      store ((← object owner).offset (sc.fieldOffset cls x)) d
      pure env) := by
  unfold Scene.assign
  simp [hbound, hkind, hstatic]

theorem call_static {m : SymbolId} (hkind : sc.sig.kind? m = some (.method info))
    (hstatic : info.modifiers.isStatic = true) :
    sc.call owner (some m) args = sc.invoke m .null args := by
  unfold Scene.call
  simp only [hkind, hstatic, if_true]

theorem call_instance {m : SymbolId} (hkind : sc.sig.kind? m = some (.method info))
    (hstatic : info.modifiers.isStatic = false) :
    sc.call owner (some m) args = (do sc.invoke m (← object (← owner)) args) := by
  unfold Scene.call
  simp [hkind, hstatic]

end Scene

namespace Reference

/-- The value of a path. What stands before a static member is not evaluated. -/
def eval (sc : Scene) (env : Valuation) : Reference → Exec Datum
  | this _ => pure sc.this
  | ident _ name => sc.value env (pure sc.this) name
  | member _ owner name => sc.value env (owner.eval sc env) name

/-- The object that the last name of a path may belong to. -/
def evalOwner (sc : Scene) (env : Valuation) : Reference → Exec Datum
  | member _ owner _ => owner.eval sc env
  | _ => pure sc.this

def assign (sc : Scene) (env : Valuation) (target : Reference) (value : Exec Datum) : Exec Valuation :=
  match target with
  | this _ => stuck
  | ident _ name | member _ _ name => sc.assign env (target.evalOwner sc env) name value

end Reference

namespace Expr

mutual

/-- The value of an expression, from left to right. -/
def eval (sc : Scene) (env : Valuation) : Expr → Exec Datum
  | int _ value => pure (.ofWord value)
  | bool _ value => pure (.ofBool value)
  | null _ => pure .null
  | unary _ op operand => do op.apply (← operand.eval sc env)
  | binary _ op left right => do
    let d ← left.eval sc env
    if op.isLogical then
      if d = .ofBool op.decisive then pure d else right.eval sc env
    else op.apply d (← right.eval sc env)
  | ternary _ cond onTrue onFalse => do
    if (← cond.eval sc env).holds then onTrue.eval sc env else onFalse.eval sc env
  | ref _ target => target.eval sc env
  | index _ target subscript => do
    let array ← target.eval sc env
    let index ← subscript.eval sc env
    load (← element array index)
  | call _ callee args => do
    let args ← evalAll sc env args
    match ← sc.call (callee.evalOwner sc env) callee.binding args with
    | some d => pure d
    | none => stuck
  | newObject _ cls =>
    match cls.binding with
    | some c => Exec.newObject (sc.sig.instanceFields c).length
    | none => stuck
  | newArray _ _ size => do Exec.newArray (← size.eval sc env)

def evalAll (sc : Scene) (env : Valuation) : List Expr → Exec (List Datum)
  | [] => pure []
  | arg :: rest => do
    let d ← arg.eval sc env
    return d :: (← evalAll sc env rest)

end

end Expr

/-- How control leaves a statement: at its end, or with the result of the method. -/
inductive Leave where
  | next (env : Valuation)
  | return (result : Option Datum)

namespace Exec

/-- What follows a statement, unless that returns. -/
def followedBy (first : Exec Leave) (rest : Valuation → Exec Leave) : Exec Leave := do
  match ← first with
  | .next env => rest env
  | .return result => pure (.return result)

/-- The rounds of a loop, for as long as the condition holds and is tested again. -/
def loop (cond : Valuation → Exec Bool) (round : Valuation → Exec Leave) : Nat → Valuation → Exec Leave
  | 0, _ => throw .timeout
  | rounds + 1, env => do
    if ← cond env then (round env).followedBy (loop cond round rounds) else pure (.next env)

end Exec

namespace Stmt

/-- Whether a loop goes on. One without a condition does. -/
def goesOn (sc : Scene) (cond : Option Expr) (env : Valuation) : Exec Bool :=
  match cond with
  | some cond => return (← cond.eval sc env).holds
  | none => pure true

mutual

/-- Executes a statement. -/
def exec (sc : Scene) : Stmt → Valuation → Exec Leave
  | block _ stmts, env => execAll sc stmts env
  | varDecl _ var init, env => do
    let d ← init.eval sc env
    match var.binding with
    | some x => pure (.next (Function.update env x d))
    | none => stuck
  | assign _ target value, env => return .next (← target.assign sc env (value.eval sc env))
  | indexAssign _ target subscript value, env => do
    let array ← target.eval sc env
    let index ← subscript.eval sc env
    let d ← value.eval sc env
    store (← element array index) d
    pure (.next env)
  | call _ callee args, env => do
    let args ← Expr.evalAll sc env args
    let _ ← sc.call (callee.evalOwner sc env) callee.binding args
    pure (.next env)
  | .return _ (some value), env => return .return (some (← value.eval sc env))
  | .return _ none, _ => pure (.return none)
  | ifElse _ cond onTrue onFalse, env => do
    if (← cond.eval sc env).holds then onTrue.exec sc env else execOption sc onFalse env
  | .while _ cond body, env =>
    loop (goesOn sc (some cond)) (body.exec sc) sc.rounds env
  | .for _ init cond update body, env =>
    (execOption sc init env).followedBy
      (loop (goesOn sc cond) (fun env => (body.exec sc env).followedBy (execOption sc update))
        sc.rounds)

def execOption (sc : Scene) : Option Stmt → Valuation → Exec Leave
  | none, env => pure (.next env)
  | some stmt, env => stmt.exec sc env

def execAll (sc : Scene) : List Stmt → Valuation → Exec Leave
  | [], env => pure (.next env)
  | stmt :: rest, env => (stmt.exec sc env).followedBy (execAll sc rest)

end

end Stmt

end SmallJava
