import SmallJava.Codegen.Reference

namespace SmallJava

def UnaryOp.primitive : UnaryOp → Primitive
  | not => .not
  | neg => .neg

def BinaryOp.primitive : BinaryOp → Primitive
  | or => .or
  | and => .and
  | eq => .eq
  | ne => .ne
  | lt => .lt
  | le => .le
  | gt => .gt
  | ge => .ge
  | add => .add
  | sub => .sub
  | mul => .mult
  | div => .div
  | mod => .mod

namespace Gen

/-- Makes sure that the value of an expression is on the stack. -/
def pushed (code : Gen Value) : Gen Unit := do
  match ← code with
  | .known word => emit (·.literal word.toInt)
  | .onStack => pure ()

/-- Emits nothing for an expression whose value is known. -/
def unlessKnown (site : Site) (expr : Expr) (code : Gen Value) : Gen Value := do
  match ← constantAt site expr with
  | some word => pure (.known word)
  | none => code

def unary (op : UnaryOp) (operand : Gen Unit) : Gen Value := do
  operand
  emit (·.primitive op.primitive)
  pure .onStack

def binary (op : BinaryOp) (left right : Gen Unit) : Gen Value := do
  left
  right
  emit (·.primitive op.primitive)
  pure .onStack

/-- The code of one of two alternatives, after a condition that jumps on `false`. -/
def choose (onTrue onFalse : Gen Unit) : Cond → Gen Unit
  | .known true => onTrue
  | .known false => onFalse
  | .jumps toElse => do
    onTrue
    let done ← emitJump (·.jump)
    patchAll toElse
    onFalse
    emit (·.patch done)

/-- A choice between two values. `cond` is given the outcome it is to jump on. -/
def ternary (cond : Bool → Gen Cond) (onTrue onFalse : Gen Unit) : Gen Value := do
  choose onTrue onFalse (← cond false)
  pure .onStack

/-- A logical operator as a value. A known left operand settles the result or
    leaves it to the right one. After an unknown left operand, a known right
    operand settles the result, and the left value is dropped, or changes
    nothing. -/
def logical (op : BinaryOp) (leftKnown rightKnown : Gen (Option Word)) (left right : Gen Value) :
    Gen Value := do
  let decisive := Word.ofBool op.decisive
  match ← leftKnown with
  | some word => if word = decisive then pure (.known decisive) else right
  | none =>
    pushed left
    match ← rightKnown with
    | some word =>
      if word = decisive then
        emit (·.pop 1)
        pure (.known decisive)
      else pure .onStack
    | none =>
      let short ← emitJump (·.jumpIf decisive.toInt)
      pushed right
      let done ← emitJump (·.jump)
      emit (·.patch short)
      emit (·.literal decisive.toInt)
      emit (·.patch done)
      pure .onStack

def element (target : Reference) (subscript : Gen Unit) : Gen Value := do
  target.push
  subscript
  emit (·.primitive .arrayref)
  pure .onStack

/-- Pushes the object of a call: what stands before the dot, or the current object. -/
def pushReceiver : Reference → Gen Unit
  | .member _ owner _ => owner.push
  | _ => emit (·.loadAddress .ob 0)

/-- The code of a call after its arguments. A static method is called without an
    object. -/
def callMethod (table : SymbolTable) (callee : Reference) (method : SymbolId) : Gen Unit := do
  if table.isStatic method then emit (·.call false method (table.slot? method))
  else
    pushReceiver callee
    emit (·.call true method (table.slot? method))

/-- A call: the arguments, then the object if there is one. Yields the method. -/
def call (callee : Reference) (args : Gen Unit) : Gen SymbolId := do
  args
  let method ← bound callee.binding callee.annot.span
  let table ← table
  if table.isMethod method then
    callMethod table callee method
    pure method
  else throw (.wrongKind method "method")

def newObject (cls : Ident) : Gen Value := do
  let symbol ← bound cls.binding cls.span
  let size ← expectSlot symbol
  emit (·.literal (-1))
  emit (·.literal size)
  emit (·.primitive .newobj)
  pure .onStack

def newArray (size : Gen Unit) : Gen Value := do
  size
  emit (·.primitive .newarr)
  pure .onStack

/-- Turns a value into a jump that is taken on one outcome. -/
def jumpOn (when : Bool) (code : Gen Value) : Gen Cond := do
  match ← code with
  | .known word => pure (.known word.isTrue)
  | .onStack => return .jumps [← emitJump (·.jumpIf (Word.ofBool when).toInt)]

/-- The jumps of a condition: a known outcome jumps always or never. -/
def jumpsOf (when : Bool) : Cond → Gen (List Label)
  | .known outcome => do
    if outcome = when then return [← emitJump (·.jump)] else pure []
  | .jumps labels => pure labels

/-- A logical operator as a condition. If the outcome to jump on is the decisive
    one, each operand alone can take the jump; otherwise a decisive left operand
    skips the right one. -/
def chain (op : BinaryOp) (left right : Bool → Gen Cond) (when : Bool) : Gen Cond := do
  if when = op.decisive then
    let leftJumps ← jumpsOf when (← left when)
    let rightJumps ← jumpsOf when (← right when)
    pure (.jumps (leftJumps ++ rightJumps))
  else
    let skip ← jumpsOf op.decisive (← left op.decisive)
    let jumps ← jumpsOf when (← right when)
    patchAll skip
    pure (.jumps jumps)

end Gen

/-- The condition that has the other outcome. -/
def Cond.negate : Cond → Cond
  | known outcome => known !outcome
  | jumps labels => jumps labels

namespace Expr

open Gen

mutual

/-- Code for the value of an expression. -/
def genValue (site : Site) (expr : Expr) : Gen Value :=
  unlessKnown site expr <|
    match expr with
    | int _ value => pure (.known value)
    | bool _ value => pure (.known (.ofBool value))
    | null _ => pure (.known .null)
    | unary _ op operand => Gen.unary op (pushed (operand.genValue site))
    | binary _ op left right =>
      if op.isLogical then
        logical op (constantAt site left) (constantAt site right) (left.genValue site)
          (right.genValue site)
      else Gen.binary op (pushed (left.genValue site)) (pushed (right.genValue site))
    | ternary _ cond onTrue onFalse =>
      Gen.ternary (cond.genCond site) (pushed (onTrue.genValue site))
        (pushed (onFalse.genValue site))
    | ref _ target => do
      target.push
      pure .onStack
    | index _ target subscript => element target (pushed (subscript.genValue site))
    | call _ callee args => do
      let _ ← Gen.call callee (genArgs site args)
      pure .onStack
    | newObject _ cls => Gen.newObject cls
    | newArray _ _ size => Gen.newArray (pushed (size.genValue site))

/-- Code that jumps if the expression has the outcome `when` and runs on
    otherwise. Logical operators and negation become chains of jumps. -/
def genCond (site : Site) (expr : Expr) (when : Bool) : Gen Cond := do
  match ← constantAt site expr with
  | some word => pure (.known word.isTrue)
  | none =>
    match expr with
    | int _ value => pure (.known value.isTrue)
    | bool _ value => pure (.known value)
    | null _ => pure (.known Word.null.isTrue)
    | unary _ .not operand => Cond.negate <$> operand.genCond site !when
    | unary _ .neg operand => jumpOn when (Gen.unary .neg (pushed (operand.genValue site)))
    | binary _ op left right =>
      if op.isLogical then chain op (left.genCond site) (right.genCond site) when
      else
        jumpOn when <|
          Gen.binary op (pushed (left.genValue site)) (pushed (right.genValue site))
    | ternary _ cond onTrue onFalse =>
      jumpOn when <|
        Gen.ternary (cond.genCond site) (pushed (onTrue.genValue site))
          (pushed (onFalse.genValue site))
    | ref _ target =>
      jumpOn when do
        target.push
        pure .onStack
    | index _ target subscript => jumpOn when (element target (pushed (subscript.genValue site)))
    | call _ callee args =>
      jumpOn when do
        let _ ← Gen.call callee (genArgs site args)
        pure .onStack
    | newObject _ cls => jumpOn when (Gen.newObject cls)
    | newArray _ _ size => jumpOn when (Gen.newArray (pushed (size.genValue site)))

/-- Pushes arguments in order. -/
def genArgs (site : Site) : List Expr → Gen Unit
  | [] => pure ()
  | arg :: rest => do
    pushed (arg.genValue site)
    genArgs site rest

end

/-- Pushes the value of an expression. -/
def genPush (site : Site) (expr : Expr) : Gen Unit := pushed (expr.genValue site)

end Expr

end SmallJava
