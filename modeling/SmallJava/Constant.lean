import SmallJava.Dict
import SmallJava.Syntax.Expr

namespace SmallJava

def UnaryOp.eval (op : UnaryOp) (operand : Word) : Word :=
  match op with
  | .not => .ofBool (operand == .ofBool false)
  | .neg => -operand

/-- The value of a binary operator on two words. Division and remainder by zero
    have none: they are faults of the running program. -/
def BinaryOp.eval? (op : BinaryOp) (left right : Word) : Option Word :=
  match op with
  | .or => some (.ofBool (left != .ofBool false || right != .ofBool false))
  | .and => some (.ofBool (left != .ofBool false && right != .ofBool false))
  | .eq => some (.ofBool (left == right))
  | .ne => some (.ofBool (left != right))
  | .lt => some (.ofBool (left < right))
  | .le => some (.ofBool (left ≤ right))
  | .gt => some (.ofBool (left > right))
  | .ge => some (.ofBool (left ≥ right))
  | .add => some (left + right)
  | .sub => some (left - right)
  | .mul => some (left * right)
  | .div => if right = 0 then none else some (left / right)
  | .mod => if right = 0 then none else some (left % right)

/-- The value of the left operand that settles a logical operator alone. -/
def BinaryOp.decisive (op : BinaryOp) : Bool := op == .or

/-- The value of an expression, if evaluating it can have no effect but to give
    that value. `known` holds the variables whose value is known where the
    expression stands. Without folding, only literals are constant. -/
def Expr.constant? (folding : Bool) (known : Dict SymbolId Word) : Expr → Option Word
  | .int _ value => some value
  | .bool _ value => some (.ofBool value)
  | .null _ => some .null
  | .ref _ (.ident _ name) => if folding then name.binding.bind known.get? else none
  | .unary _ op operand =>
    if folding then (operand.constant? folding known).map op.eval else none
  | .binary _ op left right =>
    if folding then
      match left.constant? folding known with
      | none => none
      | some leftWord =>
        if op.isLogical then
          if leftWord = .ofBool op.decisive then some leftWord
          else right.constant? folding known
        else (right.constant? folding known).bind (op.eval? leftWord)
    else none
  | .ternary _ cond onTrue onFalse =>
    if folding then
      match cond.constant? folding known with
      | none => none
      | some word =>
        if word = .ofBool false then onFalse.constant? folding known
        else onTrue.constant? folding known
    else none
  | _ => none

end SmallJava
