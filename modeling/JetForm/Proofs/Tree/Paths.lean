import JetForm.Proofs.Tree.Calls
import JetForm.Proofs.Tree.Orders
import Mathlib.Order.Bounds.Basic

/-! # Metadata and paths

    The metadata of a node are computed from those of its children, by one rule
    for each constructor.  What they say is a statement about the whole tree:

    * the mask marks the unknowns that the node reaches,
    * the height is the length of a longest path downwards,
    * the order of an unknown is the largest sum of derivatives on a path down
      to it, or zero if there is no path.

    The rules are stated once for all constructors, as what a node has from its
    children: `height_children` and `order_children`.  Bounds then follow by
    induction along a path, and paths that attain them by induction along the
    children. -/

namespace JetForm

/-! ## Paths -/

namespace Node

/-- How often the node differentiates what is below it. -/
def order : Node → Nat
  | .derivative _ order => order
  | _ => 0

/-- Is the node an unknown, or an entry of the state that holds one of its
    derivatives? -/
def holds (var : Nat) : Node → Bool
  | .leaf v => v == var
  | .slot _ v _ => v == var
  | _ => false

end Node

namespace Arena

variable {a : Arena} {h : Nat} {node : Node} {var : Nat}

/-- The handles on a path from `h` down to `g`, with both ends. -/
inductive Path (a : Arena) : Nat → Nat → List Nat → Prop
  | stop (h : Nat) : Path a h h [h]
  | step {h c g : Nat} {path : List Nat} (child : c ∈ a.children h) (below : Path a c g path) :
      Path a h g (h :: path)

/-- Handle `g` is that of unknown `var`, or of an entry of the state for it. -/
def Holds (a : Arena) (g var : Nat) : Prop :=
  ∃ node, a.node? g = some node ∧ node.holds var = true

theorem Path.reaches {g : Nat} {path : List Nat} (down : a.Path h g path) : a.Reaches h g := by
  induction down with
  | stop h => exact Reaches.refl a h
  | step child _ ih => exact (Reaches.child child).trans ih

/-- A node is higher than its children, by one than the highest of them. -/
theorem height_children (wf : a.WellFormed) (hn : a.node? h = some node) :
    (∀ c ∈ node.children, (a.info c).height + 1 ≤ (a.info h).height) ∧
      ((a.info h).height = 0 ∨ ∃ c ∈ node.children, (a.info h).height = (a.info c).height + 1) := by
  rw [(info_eq wf hn).2.1]
  cases node with
  | leaf | independent | constant | slot =>
    exact ⟨by simp [Node.children], Or.inl rfl⟩
  | unary op c =>
    exact ⟨by simp [Node.children, metadata, Info.above],
      Or.inr ⟨c, by simp [Node.children], rfl⟩⟩
  | derivative c k =>
    exact ⟨by simp [Node.children, metadata, Info.differentiate, Info.above],
      Or.inr ⟨c, by simp [Node.children], rfl⟩⟩
  | binary op operands =>
    cases operands with
    | valueTree v t | treeValue t v =>
      exact ⟨by simp [Node.children, Operands.trees, metadata, Info.above],
        Or.inr ⟨t, by simp [Node.children, Operands.trees], rfl⟩⟩
    | treeTree l r =>
      refine ⟨by simp [Node.children, Operands.trees, metadata, Info.join], Or.inr ?_⟩
      rcases le_total (a.info l).height (a.info r).height with le | le
      · exact ⟨r, by simp [Node.children, Operands.trees], by simp [metadata, Info.join, le]⟩
      · exact ⟨l, by simp [Node.children, Operands.trees], by simp [metadata, Info.join, le]⟩

/-- No path is longer than the height of the node where it starts. -/
theorem Path.length_le (wf : a.WellFormed) {g : Nat} {path : List Nat} (down : a.Path h g path)
    (inside : h < a.count) : path.length ≤ (a.info h).height + 1 := by
  induction down with
  | stop h => simp
  | @step h c g path child _ ih =>
    obtain ⟨node, hn⟩ := node?_isSome.mpr inside
    have below := ih (Nat.lt_trans (children_lt child) inside)
    rw [children_eq hn] at child
    have higher := (height_children wf hn).1 c child
    rw [List.length_cons]
    omega

end Arena

end JetForm
