import JetForm.Tree.Arena

/-! # Requests for single nodes

    A caller outside may ask for any node by numbers and names.  Nothing is
    known about them: handles may be negative or too large, and operations may
    not exist. -/

namespace JetForm

/-- Operands given by handles that need not exist. -/
inductive OperandRequest where
  | valueTree (value tree : Int)
  | treeValue (tree value : Int)
  | treeTree (left right : Int)

/-- A node as it is asked for.  Operands of unknown shape are `none`. -/
inductive NodeRequest where
  | leaf (var : Int)
  | independent
  | constant (value : Int)
  | slot (index var order : Int)
  | unary (op : String) (child : Int)
  | binary (op : String) (operands : Option OperandRequest)
  | derivative (child : Int) (order : Number)

namespace Arena

/-- Check a handle of a node. -/
def askNode (h : Int) : Building Nat := do
  MonadExcept.ofExcept ((← get).nodeHandle h)

/-- Check a handle of a value. -/
def askValue (v : Int) : Building Nat := do
  MonadExcept.ofExcept ((← get).valueHandle v)

/-- Check operands, values before trees. -/
def askOperands (operands : OperandRequest) : Building Operands := do
  match operands with
  | .valueTree value tree =>
    let value ← askValue value
    return .valueTree value (← askNode tree)
  | .treeValue tree value =>
    let value ← askValue value
    return .treeValue (← askNode tree) value
  | .treeTree left right =>
    let left ← askNode left
    return .treeTree left (← askNode right)

/-- An order of derivative: a positive integer, or the truth value that counts
    as one. -/
def askOrder (order : Number) : Building Nat :=
  match order with
  | .int k => if 0 < k then pure k.toNat else throw (.orderNotPositive order.exactText)
  | .bool true => pure 1
  | order => throw (.orderNotPositive order.exactText)

/-- Build the node that is asked for. -/
def build (request : NodeRequest) : Building Nat := do
  match request with
  | .leaf var => leaf var
  | .independent => independent
  | .constant v => constant (← askValue v)
  | .slot index var order => slot index var order
  | .unary op child =>
    match UnaryOp.ofName? op with
    | some op => unary op (← askNode child)
    | none => throw (.unaryRule op)
  | .binary op operands =>
    match BinaryOp.ofName? op, operands with
    | some op, some operands => binary op (← askOperands operands)
    | some _, none => throw .operandShape
    | none, _ => throw (.binaryRule op)
  | .derivative child order =>
    let order ← askOrder order
    derivative (← askNode child) order

end Arena

end JetForm
