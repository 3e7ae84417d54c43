import JetForm.Proofs.Tree.Shape
import Std.Data.HashMap.Lemmas

/-! # What holds of every arena

    `WellFormed` is the invariant of arenas: both indices name exactly what is
    stored, values and unknowns are in range, and the metadata of a node is what
    its children say.

    `Extends` says that one arena has grown out of another.  Handles keep their
    nodes, so they keep their trees: `Extends.tree`. -/

namespace JetForm

/-- What the constructors check about a node apart from its handles. -/
def Node.Admissible (size : Nat) : Node → Prop
  | .leaf var => var < size
  | .slot _ var _ => var < size
  | .derivative _ order => 0 < order
  | _ => True

namespace Arena

/-- The invariant of arenas. -/
structure WellFormed (a : Arena) : Prop where
  size_infos : a.infos.size = a.nodes.size
  index : ∀ node h, a.index[node]? = some h ↔ a.node? h = some node
  valueIndex : ∀ (key : Value) (h : Nat),
    a.valueIndex[key]? = some h ↔ ∃ v : Value, a.values[h]? = some v ∧ v.key = key
  values : ∀ h node, a.node? h = some node → ∀ v ∈ node.values, v < a.values.size
  admissible : ∀ h node, a.node? h = some node → node.Admissible a.size
  info : ∀ h node, a.node? h = some node →
    ∃ coeff, a.info h = { a.metadata node with coeff } ∧ ∀ v, coeff = some v → v < a.values.size

theorem wellFormed_empty (size serial : Nat) : (empty size serial).WellFormed := by
  refine ⟨rfl, ?_, ?_, ?_, ?_, ?_⟩
  · intro node h
    simp [empty, node?]
  · intro key h
    simp [empty]
  all_goals
    intro h node hn
    simp [empty, node?] at hn

/-- Arena `b` has grown out of arena `a`. -/
structure Extends (a b : Arena) : Prop where
  size : b.size = a.size
  node : ∀ h node, a.node? h = some node → b.node? h = some node
  info : ∀ h, h < a.count → b.info h = a.info h
  value : ∀ v, v < a.values.size → v < b.values.size ∧ b.value v = a.value v

namespace Extends

variable {a b c : Arena}

theorem refl (a : Arena) : a.Extends a :=
  ⟨rfl, fun _ _ => id, fun _ _ => rfl, fun _ h => ⟨h, rfl⟩⟩

theorem lt_count (ab : a.Extends b) {h : Nat} (inside : h < a.count) : h < b.count := by
  obtain ⟨node, hn⟩ := node?_isSome.mpr inside
  exact Arena.lt_count (ab.node h node hn)

theorem node_eq (ab : a.Extends b) {h : Nat} (inside : h < a.count) : b.node? h = a.node? h := by
  obtain ⟨node, hn⟩ := node?_isSome.mpr inside
  rw [hn, ab.node h node hn]

theorem trans (ab : a.Extends b) (bc : b.Extends c) : a.Extends c where
  size := bc.size.trans ab.size
  node h node hn := bc.node h node (ab.node h node hn)
  info h inside := (bc.info h (ab.lt_count inside)).trans (ab.info h inside)
  value v inside := by
    obtain ⟨inside', eq⟩ := ab.value v inside
    obtain ⟨inside'', eq'⟩ := bc.value v inside'
    exact ⟨inside'', eq'.trans eq⟩

/-- A node has the same tree in every arena that grows out of the first. -/
theorem tree (ab : a.Extends b) (wf : a.WellFormed) {h : Nat} (inside : h < a.count) :
    b.tree h = a.tree h := by
  refine node_induction inside ?_
  intro h node hn child
  have value : ∀ v ∈ node.values, b.value v = a.value v := fun v hv =>
    (ab.value v (wf.values h node hn v hv)).2
  rw [tree_eq hn, tree_eq (ab.node h node hn)]
  cases node with
  | leaf | independent | slot => rfl
  | constant v => simp [treeOf, value v (by simp [Node.values])]
  | unary op c => simp [treeOf, child c (by simp [Node.children])]
  | derivative c order => simp [treeOf, child c (by simp [Node.children])]
  | binary op operands =>
    cases operands <;>
      simp_all [treeOf, Node.children, Node.values, Operands.trees, Operands.values]

theorem expression (ab : a.Extends b) (wf : a.WellFormed) {h : Nat} (inside : h < a.count) :
    b.expression h = a.expression h := by
  rw [Arena.expression, Arena.expression, ab.tree wf inside]

end Extends

/-! ## Metadata -/

variable {a : Arena}

theorem info_eq (wf : a.WellFormed) {h : Nat} {node : Node} (hn : a.node? h = some node) :
    (a.info h).diffOrder = (a.metadata node).diffOrder ∧
      (a.info h).height = (a.metadata node).height ∧ (a.info h).mask = (a.metadata node).mask := by
  obtain ⟨coeff, eq, -⟩ := wf.info h node hn
  rw [eq]
  exact ⟨rfl, rfl, rfl⟩

/-- The mask of a node marks the unknowns in its tree. -/
theorem testBit_mask (wf : a.WellFormed) {h : Nat} (inside : h < a.count) (var : Nat) :
    (a.info h).mask.testBit var = (a.tree h).dependsOn var := by
  refine node_induction inside ?_
  intro h node hn child
  rw [(info_eq wf hn).2.2, tree_eq hn]
  cases node with
  | leaf v =>
    simp [metadata, Info.ofMask, treeOf, Tree.dependsOn, Nat.one_shiftLeft, Nat.testBit_two_pow,
      beq_eq_decide]
  | slot index v order =>
    simp [metadata, Info.ofMask, treeOf, Tree.dependsOn, Nat.one_shiftLeft, Nat.testBit_two_pow,
      beq_eq_decide]
  | independent => simp [metadata, Info.ofMask, treeOf, Tree.dependsOn]
  | constant v => simp [metadata, Info.ofMask, treeOf, Tree.dependsOn]
  | unary op c =>
    simpa [metadata, Info.above, treeOf, Tree.dependsOn] using child c (by simp [Node.children])
  | derivative c order =>
    simpa [metadata, Info.above, Info.differentiate, treeOf, Tree.dependsOn] using
      child c (by simp [Node.children])
  | binary op operands =>
    cases operands <;>
      simp_all [metadata, Info.above, Info.join, treeOf, Tree.dependsOn, Node.children,
        Operands.trees]

/-- The vector of orders of a node holds the orders of the unknowns in its
    tree. -/
theorem diffOrder_info (wf : a.WellFormed) {h : Nat} (inside : h < a.count) :
    (a.info h).diffOrder = (List.range a.size).map fun var => (a.tree h).diffOrder var := by
  refine node_induction inside ?_
  intro h node hn child
  rw [(info_eq wf hn).1, tree_eq hn]
  cases node with
  | leaf | slot | independent | constant =>
    simp [metadata, Info.ofMask, treeOf, Tree.diffOrder, List.map_const']
  | unary op c =>
    simpa [metadata, Info.above, treeOf, Tree.diffOrder] using child c (by simp [Node.children])
  -- the order grows by that of the derivative wherever the child depends on the unknown
  | derivative c order =>
    have hc : c < a.count := Nat.lt_trans (a.child_lt h _ hn c (by simp [Node.children]))
      (lt_count hn)
    simp only [metadata, Info.differentiate, treeOf, Tree.diffOrder,
      child c (by simp [Node.children]), testBit_mask wf hc]
    refine List.ext_getElem (by simp) ?_
    intro i _ _
    simp
  | binary op operands =>
    cases operands with
    | valueTree v t | treeValue t v =>
      simpa [metadata, Info.above, treeOf, Tree.diffOrder] using
        child t (by simp [Node.children, Operands.trees])
    | treeTree l r =>
      simp only [metadata, Info.join, treeOf, Tree.diffOrder,
        child l (by simp [Node.children, Operands.trees]),
        child r (by simp [Node.children, Operands.trees])]
      refine List.ext_getElem (by simp) ?_
      intro i _ _
      simp

theorem diffOrder_info_getElem? (wf : a.WellFormed) {h : Nat} (inside : h < a.count) {var : Nat}
    (known : var < a.size) :
    (a.info h).diffOrder[var]? = some ((a.expression h).diffOrder var) := by
  rw [diffOrder_info wf inside, expression, Tree.diffOrder_keyed]
  simp [known]

end Arena

end JetForm
