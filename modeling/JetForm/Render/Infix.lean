import JetForm.Render.Label
import JetForm.Tree.Unfold

/-! # Infix renderings

    `Arena.infixText` writes a tree as a formula, such as
    `diff(u, 2) + sin(u)`.  Every binary operation is put in parentheses; the
    outermost pair is dropped again at the root and around an argument.  A sign
    is written before its operand, which gets parentheses only if it starts with
    a sign itself. -/

namespace JetForm

namespace Infix

/-! ## Parentheses -/

/-- Does the parenthesis that opened the text close before its end?  `depth`
    counts the open ones. -/
def closesEarly : Nat → List Char → Bool
  | _, [] => false
  | _, [_] => false
  | depth, c :: rest =>
    let depth := if c = '(' then depth + 1 else if c = ')' then depth - 1 else depth
    depth == 0 || closesEarly depth rest

/-- The text without a pair of parentheses around all of it. -/
def strip (s : String) : String :=
  if s.startsWith "(" && s.endsWith ")" && !closesEarly 0 s.toList then
    String.ofList (s.toList.drop 1).dropLast
  else s

/-! ## Writing one node -/

/-- An operand of a sign. -/
def signOperand (inner : String) : String :=
  if inner.startsWith "-" || inner.startsWith "+" then "(" ++ inner ++ ")" else inner

/-- A unary operation on a written operand. -/
def unary (op : UnaryOp) (inner : String) : String :=
  match op with
  | .uminus => "-" ++ signOperand inner
  | .uplus => "+" ++ signOperand inner
  | op => op.name ++ "(" ++ strip inner ++ ")"

/-- A binary operation between written operands. -/
def binary (op : BinaryOp) (left right : String) : String :=
  "(" ++ left ++ " " ++ op.symbol ++ " " ++ right ++ ")"

/-- A derivative of a written operand; order one is not mentioned. -/
def derivative (inner : String) (order : Nat) : String :=
  if order = 1 then "diff(" ++ strip inner ++ ")"
  else "diff(" ++ strip inner ++ ", " ++ toString order ++ ")"

end Infix

namespace Tree

/-- The written form of a tree, with outer parentheses. -/
def infixBody : Tree → String
  | .leaf var => s!"u{var}"
  | .independent => "t"
  | .constant v => v.label
  | .slot index _ _ => s!"x[{index}]"
  | .unary op child => Infix.unary op child.infixBody
  | .valueTree op v child => Infix.binary op v.label child.infixBody
  | .treeValue op child v => Infix.binary op child.infixBody v.label
  | .treeTree op left right => Infix.binary op left.infixBody right.infixBody
  | .derivative child order => Infix.derivative child.infixBody order

/-- The formula of a tree, with default names. -/
def infixText (t : Tree) : String :=
  Infix.strip t.infixBody

end Tree

namespace Arena

/-- The written form of one node, given those of its children. -/
def infixNode (a : Arena) (names : List String) (text : Nat → String) (node : Node) :
    Except Error String := do
  if let some label ← a.leafLabel names node then return label
  match node with
  | .unary op child => return Infix.unary op (text child)
  | .derivative child order => return Infix.derivative (text child) order
  | .binary op (.valueTree v t) => return Infix.binary op (a.value v).label (text t)
  | .binary op (.treeValue t v) => return Infix.binary op (text t) (a.value v).label
  | .binary op (.treeTree l r) => return Infix.binary op (text l) (text r)
  | _ => return ""

/-- The formula of the tree below a handle. -/
def infixText (a : Arena) (root : Nat) (names : List String := []) : Except Error String := do
  let texts ← a.sweepM [root] (∅ : Std.HashMap Nat String) fun texts h node => do
    return texts.insert h (← a.infixNode names (fun c => texts[c]?.getD "") node)
  return Infix.strip (texts[root]?.getD "")

end Arena

end JetForm
