import JetForm.Tree.Arena

/-! # Unfolded trees and their values

    `Arena.tree` unfolds the graph below a handle into a plain tree, in which
    nothing is shared and external values stand in place.  A `Meaning` gives
    every leaf and operation a value in some carrier, and `Tree.denote`
    computes the value of a tree by recursion.

    Both serve as the yardstick for passes over arenas and for programs: two
    handles are interchangeable when their trees denote the same. -/

namespace JetForm

/-- An expression without sharing. -/
inductive Tree where
  | leaf (var : Nat)
  | independent
  | constant (v : Value)
  | slot (index : Int) (var : Nat) (order : Int)
  | unary (op : UnaryOp) (child : Tree)
  | valueTree (op : BinaryOp) (v : Value) (child : Tree)
  | treeValue (op : BinaryOp) (child : Tree) (v : Value)
  | treeTree (op : BinaryOp) (left right : Tree)
  | derivative (child : Tree) (order : Nat)
  deriving DecidableEq

/-- Values for everything that a tree is made of.  `derivative k` differentiates
    `k` times. -/
structure Meaning (α : Type u) where
  leaf : Nat → α
  time : α
  value : Value → α
  state : Int → α
  unary : UnaryOp → α → α
  binary : BinaryOp → α → α → α
  derivative : Nat → α → α

namespace Tree

/-- The value of a tree. -/
def denote {α : Type u} (m : Meaning α) : Tree → α
  | .leaf var => m.leaf var
  | .independent => m.time
  | .constant v => m.value v
  | .slot index _ _ => m.state index
  | .unary op child => m.unary op (child.denote m)
  | .valueTree op v child => m.binary op (m.value v) (child.denote m)
  | .treeValue op child v => m.binary op (child.denote m) (m.value v)
  | .treeTree op left right => m.binary op (left.denote m) (right.denote m)
  | .derivative child order => m.derivative order (child.denote m)

end Tree

namespace Arena

/-- The tree below a handle.  Handles of no node count as the independent
    variable. -/
def tree (a : Arena) (h : Nat) : Tree :=
  match hn : a.node? h with
  | none => .independent
  | some (.leaf var) => .leaf var
  | some .independent => .independent
  | some (.constant v) => .constant (a.value v)
  | some (.slot index var order) => .slot index var order
  | some (.unary op child) =>
    have : child < h := a.child_lt h _ hn child (by simp [Node.children])
    .unary op (a.tree child)
  | some (.binary op (.valueTree v t)) =>
    have : t < h := a.child_lt h _ hn t (by simp [Node.children, Operands.trees])
    .valueTree op (a.value v) (a.tree t)
  | some (.binary op (.treeValue t v)) =>
    have : t < h := a.child_lt h _ hn t (by simp [Node.children, Operands.trees])
    .treeValue op (a.tree t) (a.value v)
  | some (.binary op (.treeTree l r)) =>
    have : l < h := a.child_lt h _ hn l (by simp [Node.children, Operands.trees])
    have : r < h := a.child_lt h _ hn r (by simp [Node.children, Operands.trees])
    .treeTree op (a.tree l) (a.tree r)
  | some (.derivative child order) =>
    have : child < h := a.child_lt h _ hn child (by simp [Node.children])
    .derivative (a.tree child) order
termination_by h

/-- The value of the tree below a handle. -/
def denote {α : Type u} (a : Arena) (m : Meaning α) (h : Nat) : α :=
  (a.tree h).denote m

end Arena

end JetForm
