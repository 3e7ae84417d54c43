import JetForm.Proofs.Tree.Traversal
import JetForm.Tree.Unfold

/-! # The tree below a node

    `treeOf` is one step of unfolding: `tree_eq` says that the tree below a
    handle is that of its node.

    Constants are shared by their keys, so an arena may hold `-0.0` where `0.0`
    was asked for.  `Tree.keyed` replaces every value by its key: two trees are
    the same expression when their keyed forms are equal, and a meaning that
    depends on keys only cannot tell them apart.  `Arena.expression` is the keyed
    tree below a handle, the form in which passes over arenas are described.

    The metadata of a node can be read off its tree: `Tree.diffOrder`,
    `Tree.dependsOn` and `Tree.height`. -/

namespace JetForm

@[simp] theorem Number.isReal_key (n : Number) : n.key.isReal = n.isReal := by
  cases n with
  | wide x origin => cases x <;> rfl
  | bool | int | double | complex => rfl

namespace Value

/-- Is the value an external function or a real number? -/
def isReal : Value → Bool
  | .number n => n.isReal
  | .external _ => true

@[simp] theorem isReal_key (v : Value) : v.key.isReal = v.isReal := by
  cases v with
  | number n => exact n.isReal_key
  | external f => rfl

@[simp] theorem isNumber_key (v : Value) : v.key.isNumber = v.isNumber := by
  cases v <;> rfl

end Value

namespace Tree

/-! ## Constants up to their keys -/

/-- The tree with the key of each value in its place. -/
def keyed : Tree → Tree
  | .constant v => .constant v.key
  | .unary op child => .unary op child.keyed
  | .valueTree op v child => .valueTree op v.key child.keyed
  | .treeValue op child v => .treeValue op child.keyed v.key
  | .treeTree op left right => .treeTree op left.keyed right.keyed
  | .derivative child order => .derivative child.keyed order
  | t => t

/-- A meaning in which equal constants have equal values cannot tell a tree from
    its keyed form. -/
theorem denote_keyed {α : Type u} {m : Meaning α} (hm : ∀ v : Value, m.value v.key = m.value v)
    (t : Tree) : t.keyed.denote m = t.denote m := by
  induction t with
  | leaf | independent | slot => rfl
  | constant v => exact hm v
  | unary op child ih => simp only [keyed, denote, ih]
  | valueTree op v child ih => simp only [keyed, denote, ih, hm]
  | treeValue op child v ih => simp only [keyed, denote, ih, hm]
  | treeTree op left right ihl ihr => simp only [keyed, denote, ihl, ihr]
  | derivative child order ih => simp only [keyed, denote, ih]

/-! ## Numbers -/

/-- Are all numbers in the tree real? -/
def real : Tree → Bool
  | .leaf _ | .independent | .slot .. => true
  | .constant v => v.isReal
  | .unary _ c => c.real
  | .valueTree _ v t => v.isReal && t.real
  | .treeValue _ t v => t.real && v.isReal
  | .treeTree _ l r => l.real && r.real
  | .derivative c _ => c.real

/-- Is the tree made of what can be recorded: unknowns, the independent variable
    and operations, also with real numbers and external functions? -/
def recorded : Tree → Bool
  | .leaf _ | .independent => true
  | .constant _ | .slot .. => false
  | .unary _ c => c.recorded
  | .valueTree _ v t => v.isReal && t.recorded
  | .treeValue _ t v => t.recorded && v.isReal
  | .treeTree _ l r => l.recorded && r.recorded
  | .derivative c _ => c.recorded

theorem real_of_recorded {t : Tree} (recorded : t.recorded = true) : t.real = true := by
  induction t <;> simp_all [Tree.recorded, real]

/-! ## Parts -/

/-- The parts below the root of a tree. -/
def children : Tree → List Tree
  | .leaf _ | .independent | .constant _ | .slot .. => []
  | .unary _ child => [child]
  | .valueTree _ _ child => [child]
  | .treeValue _ child _ => [child]
  | .treeTree _ left right => [left, right]
  | .derivative child _ => [child]

/-- What goes over from the children to a tree holds of all trees. -/
@[elab_as_elim]
theorem children_induction {motive : Tree → Prop}
    (step : ∀ t, (∀ c ∈ t.children, motive c) → motive t) (t : Tree) : motive t := by
  induction t with
  | leaf | independent | constant | slot => exact step _ fun _ hc => nomatch hc
  | unary op c ih | valueTree op v c ih | treeValue op c v ih | derivative c k ih =>
    apply step
    intro d hd
    exact List.mem_singleton.mp hd ▸ ih
  | treeTree op l r ihl ihr =>
    apply step
    intro d hd
    rcases List.mem_cons.mp hd with rfl | hd
    · exact ihl
    · exact List.mem_singleton.mp hd ▸ ihr

/-- The tree and everything below its root. -/
def parts : Tree → List Tree
  | .unary op child => .unary op child :: child.parts
  | .valueTree op v child => .valueTree op v child :: child.parts
  | .treeValue op child v => .treeValue op child v :: child.parts
  | .treeTree op left right => .treeTree op left right :: (left.parts ++ right.parts)
  | .derivative child order => .derivative child order :: child.parts
  | t => [t]

theorem mem_parts {t p : Tree} : p ∈ t.parts ↔ p = t ∨ ∃ c ∈ t.children, p ∈ c.parts := by
  cases t <;> simp [parts, children]

/-! ## Metadata -/

/-- Does the tree contain unknown `var`, or an entry of the state that holds one
    of its derivatives? -/
def dependsOn (var : Nat) : Tree → Bool
  | .leaf v => v == var
  | .independent | .constant _ => false
  | .slot _ v _ => v == var
  | .unary _ child => child.dependsOn var
  | .valueTree _ _ child => child.dependsOn var
  | .treeValue _ child _ => child.dependsOn var
  | .treeTree _ left right => left.dependsOn var || right.dependsOn var
  | .derivative child _ => child.dependsOn var

/-- How often unknown `var` is differentiated at most. -/
def diffOrder (var : Nat) : Tree → Nat
  | .leaf _ | .independent | .constant _ | .slot .. => 0
  | .unary _ child => child.diffOrder var
  | .valueTree _ _ child => child.diffOrder var
  | .treeValue _ child _ => child.diffOrder var
  | .treeTree _ left right => max (left.diffOrder var) (right.diffOrder var)
  | .derivative child order =>
    if child.dependsOn var then child.diffOrder var + order else child.diffOrder var

@[simp] theorem dependsOn_keyed (var : Nat) (t : Tree) :
    t.keyed.dependsOn var = t.dependsOn var := by
  induction t <;> simp_all [keyed, dependsOn]

@[simp] theorem diffOrder_keyed (var : Nat) (t : Tree) :
    t.keyed.diffOrder var = t.diffOrder var := by
  induction t <;> simp_all [keyed, diffOrder]

/-- The number of operations on the longest path to a leaf. -/
def height : Tree → Nat
  | .leaf _ | .independent | .constant _ | .slot .. => 0
  | .unary _ child => child.height + 1
  | .valueTree _ _ child => child.height + 1
  | .treeValue _ child _ => child.height + 1
  | .treeTree _ left right => max left.height right.height + 1
  | .derivative child _ => child.height + 1

end Tree

namespace Arena

variable {a : Arena}

/-! ## Unfolding -/

/-- The tree of a node. -/
def treeOf (a : Arena) : Node → Tree
  | .leaf var => .leaf var
  | .independent => .independent
  | .constant v => .constant (a.value v)
  | .slot index var order => .slot index var order
  | .unary op c => .unary op (a.tree c)
  | .binary op (.valueTree v t) => .valueTree op (a.value v) (a.tree t)
  | .binary op (.treeValue t v) => .treeValue op (a.tree t) (a.value v)
  | .binary op (.treeTree l r) => .treeTree op (a.tree l) (a.tree r)
  | .derivative c order => .derivative (a.tree c) order

/-- The tree below a handle is that of its node. -/
theorem tree_eq {h : Nat} {node : Node} (hn : a.node? h = some node) :
    a.tree h = a.treeOf node := by
  rw [tree]
  split <;> rename_i eq <;> rw [hn] at eq <;> cases eq <;> rfl

/-- The tree below a handle, with the keys of its constants. -/
def expression (a : Arena) (h : Nat) : Tree :=
  (a.tree h).keyed

/-- The expression of a node. -/
def expressionOf (a : Arena) : Node → Tree
  | .leaf var => .leaf var
  | .independent => .independent
  | .constant v => .constant (a.value v).key
  | .slot index var order => .slot index var order
  | .unary op c => .unary op (a.expression c)
  | .binary op (.valueTree v t) => .valueTree op (a.value v).key (a.expression t)
  | .binary op (.treeValue t v) => .treeValue op (a.expression t) (a.value v).key
  | .binary op (.treeTree l r) => .treeTree op (a.expression l) (a.expression r)
  | .derivative c order => .derivative (a.expression c) order

theorem expression_eq {h : Nat} {node : Node} (hn : a.node? h = some node) :
    a.expression h = a.expressionOf node := by
  rw [expression, tree_eq hn]
  cases node with
  | binary op operands => cases operands <;> rfl
  | leaf | independent | constant | slot | unary | derivative => rfl

theorem children_expressionOf (node : Node) :
    (a.expressionOf node).children = node.children.map a.expression := by
  cases node with
  | binary op operands => cases operands <;> rfl
  | leaf | independent | constant | slot | unary | derivative => rfl

/-- What a tree inherits from its parts, it inherits from everything that it
    reaches. -/
theorem expression_of_reaches {P : Tree → Prop} (up : ∀ t, ∀ c ∈ t.children, P c → P t)
    {h g : Nat} (reach : a.Reaches h g) (holds : P (a.expression g)) : P (a.expression h) := by
  induction reach using Relation.ReflTransGen.head_induction_on with
  | refl => exact holds
  | @head h c hc _ below =>
    rw [Arena.children] at hc
    split at hc
    next node hn =>
      refine up _ _ ?_ below
      rw [expression_eq hn, children_expressionOf]
      exact List.mem_map_of_mem hc
    next => cases hc

/-- The parts of the tree below a handle are the trees that it reaches. -/
theorem mem_parts_expression {h : Nat} (inside : h < a.count) {p : Tree} :
    p ∈ (a.expression h).parts ↔ ∃ g, a.Reaches h g ∧ a.expression g = p := by
  refine node_induction inside ?_
  intro h node hn child
  rw [Tree.mem_parts, expression_eq hn, children_expressionOf, ← expression_eq hn]
  simp only [List.mem_map, exists_exists_and_eq_and]
  constructor
  · rintro (rfl | ⟨c, hc, below⟩)
    · exact ⟨h, Reaches.refl a h, rfl⟩
    · obtain ⟨g, reach, eq⟩ := (child c hc).mp below
      exact ⟨g, (Reaches.child (children_eq hn ▸ hc)).trans reach, eq⟩
  · rintro ⟨g, reach, rfl⟩
    rcases reaches_iff.mp reach with rfl | ⟨c, hc, reach⟩
    · exact Or.inl rfl
    · rw [children_eq hn] at hc
      exact Or.inr ⟨c, hc, (child c hc).mpr ⟨g, reach, rfl⟩⟩

/-- The node of a constant. -/
theorem exists_constant {h : Nat} {v : Value} (inside : h < a.count)
    (expression : a.expression h = .constant v) :
    ∃ i, a.node? h = some (.constant i) ∧ (a.value i).key = v := by
  obtain ⟨node, hn⟩ := node?_isSome.mpr inside
  rw [expression_eq hn] at expression
  cases node with
  | constant i =>
    cases expression
    exact ⟨i, hn, rfl⟩
  | binary op operands => cases operands <;> cases expression
  | leaf | independent | slot | unary | derivative => cases expression

/-- The node of an unknown. -/
theorem node?_of_leaf {h var : Nat} (inside : h < a.count)
    (expression : a.expression h = .leaf var) : a.node? h = some (.leaf var) := by
  obtain ⟨node, hn⟩ := node?_isSome.mpr inside
  rw [expression_eq hn] at expression
  cases node with
  | leaf var =>
    cases expression
    exact hn
  | binary op operands => cases operands <;> cases expression
  | derivative | independent | slot | unary | constant => cases expression

/-- The node of a derivative. -/
theorem exists_derivative {h k : Nat} {t : Tree} (inside : h < a.count)
    (expression : a.expression h = .derivative t k) :
    ∃ c, a.node? h = some (.derivative c k) ∧ c < a.count ∧ a.expression c = t := by
  obtain ⟨node, hn⟩ := node?_isSome.mpr inside
  rw [expression_eq hn] at expression
  cases node with
  | derivative c k =>
    obtain ⟨child, rfl⟩ := Tree.derivative.inj expression
    have below : c < a.count := Nat.lt_trans (a.child_lt h _ hn c (by simp [Node.children])) inside
    exact ⟨c, hn, below, child⟩
  | binary op operands => cases operands <;> cases expression
  | leaf | independent | slot | unary | constant => cases expression

/-- The node of a derivative of an unknown. -/
theorem exists_derivative_leaf {h var k : Nat} (inside : h < a.count)
    (expression : a.expression h = .derivative (.leaf var) k) :
    ∃ c, a.node? h = some (.derivative c k) ∧ a.node? c = some (.leaf var) := by
  obtain ⟨c, hn, below, child⟩ := exists_derivative inside expression
  exact ⟨c, hn, node?_of_leaf below child⟩

theorem denote_expression {α : Type u} {m : Meaning α}
    (hm : ∀ v : Value, m.value v.key = m.value v) (h : Nat) :
    (a.expression h).denote m = a.denote m h :=
  Tree.denote_keyed hm _

/-- Metadata of a node, without a recorded coefficient. -/
def metadata (a : Arena) : Node → Info
  | .leaf var => .ofMask a.size (1 <<< var)
  | .independent => .ofMask a.size 0
  | .constant _ => .ofMask a.size 0
  | .slot _ var _ => .ofMask a.size (1 <<< var)
  | .unary _ c => (a.info c).above none
  | .binary _ (.valueTree _ t) => (a.info t).above none
  | .binary _ (.treeValue t _) => (a.info t).above none
  | .binary _ (.treeTree l r) => (a.info l).join (a.info r)
  | .derivative c order => { (a.info c).differentiate order with coeff := none }

end Arena

end JetForm
