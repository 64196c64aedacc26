namespace SmallJava

inductive UnaryOp where
  | not
  | neg
  deriving DecidableEq

def UnaryOp.symbol : UnaryOp → String
  | not => "!"
  | neg => "-"

inductive BinaryOp where
  | or
  | and
  | eq
  | ne
  | lt
  | le
  | gt
  | ge
  | add
  | sub
  | mul
  | div
  | mod
  deriving DecidableEq

namespace BinaryOp

def symbol : BinaryOp → String
  | or => "||"
  | and => "&&"
  | eq => "=="
  | ne => "!="
  | lt => "<"
  | le => "<="
  | gt => ">"
  | ge => ">="
  | add => "+"
  | sub => "-"
  | mul => "*"
  | div => "/"
  | mod => "%"

def all : List BinaryOp := [or, and, eq, ne, lt, le, gt, ge, add, sub, mul, div, mod]

/-- The operator that is written in a given way. -/
def ofSymbol? (symbol : String) : Option BinaryOp := all.find? (·.symbol == symbol)

theorem ofSymbol?_symbol (op : BinaryOp) : ofSymbol? op.symbol = some op := by
  cases op <;> decide

/-- The operators come in four families, each with one typing rule. -/
inductive Family where
  | logical
  | equality
  | relational
  | arithmetic
  deriving DecidableEq

def family : BinaryOp → Family
  | or | and => .logical
  | eq | ne => .equality
  | lt | le | gt | ge => .relational
  | add | sub | mul | div | mod => .arithmetic

/-- The logical operators evaluate their right operand only when the left one
    leaves the result open. -/
def isLogical (op : BinaryOp) : Bool := op.family == .logical

end BinaryOp

end SmallJava
