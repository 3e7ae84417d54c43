import JetForm.Tree.Arena

/-! # Copying a node with other children

    Passes that rebuild a tree inside its own arena treat most nodes alike:
    leaves stay, and operations are recorded again on the rebuilt children. -/

namespace JetForm

/-- The same operands with other trees. -/
def Operands.mapTrees (f : Nat → Nat) : Operands → Operands
  | .valueTree value tree => .valueTree value (f tree)
  | .treeValue tree value => .treeValue (f tree) value
  | .treeTree left right => .treeTree (f left) (f right)

namespace Arena

/-- Record the node with handle `h` again, on the children that `child` gives. -/
def copyNode (child : Nat → Nat) (h : Nat) (node : Node) : Building Nat :=
  match node with
  | .leaf _ | .independent | .constant _ | .slot .. => pure h
  | .unary op c => unary op (child c)
  | .binary op operands => binary op (operands.mapTrees child)
  | .derivative c order => derivative (child c) order

end Arena

end JetForm
