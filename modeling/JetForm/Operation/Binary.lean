/-! # Binary operations -/

namespace JetForm

/-- The operations that join two operands. -/
inductive BinaryOp where
  | plus | minus | times | rdivide | power
  deriving DecidableEq, Hashable

namespace BinaryOp

/-- Name under which an operation is recorded. -/
def name : BinaryOp → String
  | .plus => "plus"
  | .minus => "minus"
  | .times => "times"
  | .rdivide => "rdivide"
  | .power => "power"

/-- Sign between the operands of an infix rendering. -/
def symbol : BinaryOp → String
  | .plus => "+"
  | .minus => "-"
  | .times => "*"
  | .rdivide => "/"
  | .power => "^"

/-- Sign between the operands of a generated statement. -/
def codeSymbol : BinaryOp → String
  | .power => "**"
  | op => op.symbol

def all : List BinaryOp :=
  [.plus, .minus, .times, .rdivide, .power]

/-- The operation recorded under a name. -/
def ofName? (s : String) : Option BinaryOp :=
  all.find? (·.name == s)

/-- The operation on doubles under the IEEE rules. -/
def ieee : BinaryOp → Float → Float → Float
  | .plus, x, y => x + y
  | .minus, x, y => x - y
  | .times, x, y => x * y
  | .rdivide, x, y => x / y
  | .power, x, y => x ^ y

end BinaryOp

end JetForm
