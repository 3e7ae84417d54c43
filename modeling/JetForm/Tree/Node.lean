import JetForm.Operation.Unary
import JetForm.Operation.Binary

/-! # Nodes

    A node of a traced expression refers to its children by handle.  Handles
    number the nodes of an arena; value handles number its external values. -/

namespace JetForm

/-- The operands of a binary node: an external value may stand on either side. -/
inductive Operands where
  | valueTree (value tree : Nat)
  | treeValue (tree value : Nat)
  | treeTree (left right : Nat)
  deriving DecidableEq, Hashable

/-- One operation or leaf. -/
inductive Node where
  /-- The unknown with the given number. -/
  | leaf (var : Nat)
  /-- The independent variable. -/
  | independent
  /-- An external value used on its own. -/
  | constant (value : Nat)
  /-- Entry `index` of the state vector, which holds a derivative of an unknown. -/
  | slot (index : Int) (var : Nat) (order : Int)
  | unary (op : UnaryOp) (child : Nat)
  | binary (op : BinaryOp) (operands : Operands)
  /-- A derivative of positive order. -/
  | derivative (child order : Nat)
  deriving DecidableEq, Hashable

namespace Operands

/-- Handles of the traced operands, left to right. -/
def trees : Operands → List Nat
  | .valueTree _ tree => [tree]
  | .treeValue tree _ => [tree]
  | .treeTree left right => [left, right]

/-- Handles of the external operands. -/
def values : Operands → List Nat
  | .valueTree value _ => [value]
  | .treeValue _ value => [value]
  | .treeTree _ _ => []

end Operands

namespace Node

/-- Handles of the children, left to right. -/
def children : Node → List Nat
  | .leaf _ | .independent | .constant _ | .slot .. => []
  | .unary _ child => [child]
  | .binary _ operands => operands.trees
  | .derivative child _ => [child]

/-- Handles of the external values that the node itself mentions. -/
def values : Node → List Nat
  | .constant value => [value]
  | .binary _ operands => operands.values
  | _ => []

/-- Unknowns, derivatives and state entries: what a recorded coefficient may
    multiply. -/
def isBare : Node → Bool
  | .leaf _ | .derivative .. | .slot .. => true
  | _ => false

end Node

/-! ## Metadata -/

/-- What is known about a node without walking its tree.

    * `diffOrder`: for each unknown, how often it is differentiated at most;
    * `height`: the number of operations on the longest path to a leaf;
    * `mask`: bit `i` is set iff the node depends on unknown `i`;
    * `coeff`: the external value multiplying a bare unknown or derivative. -/
structure Info where
  diffOrder : List Nat
  height : Nat
  mask : Nat
  coeff : Option Nat

/-- The unknowns of a mask, in increasing order. -/
def maskVars (mask : Nat) : List Nat :=
  (List.range (mask.log2 + 1)).filter mask.testBit

namespace Info

/-- Metadata of a leaf. -/
def ofMask (size mask : Nat) : Info :=
  ⟨List.replicate size 0, 0, mask, none⟩

/-- Metadata of a node with a single child: one operation more. -/
def above (child : Info) (coeff : Option Nat) : Info :=
  ⟨child.diffOrder, child.height + 1, child.mask, coeff⟩

/-- Metadata of a node with two children. -/
def join (a b : Info) : Info :=
  ⟨List.zipWith max a.diffOrder b.diffOrder, max a.height b.height + 1, a.mask ||| b.mask, none⟩

/-- Metadata of a derivative: the order of every unknown in the mask grows. -/
def differentiate (child : Info) (order : Nat) : Info :=
  { child.above child.coeff with
    diffOrder := child.diffOrder.mapIdx fun i d => if child.mask.testBit i then d + order else d }

/-- The first unknown that the node depends on. -/
def firstVar (info : Info) : Option Nat :=
  (maskVars info.mask).head?

end Info

end JetForm
