import JetForm.Proofs.Tree.Invariant

/-! # Equal expressions share a handle

    In a well-formed arena the handle of a node is determined by the expression
    below it.  So a pass that returns an expression returns a handle, and asking
    whether two handles are equal is asking whether their expressions are. -/

namespace JetForm

namespace Arena

variable {a : Arena}

/-- Values are stored once for each key. -/
theorem value_injective (wf : a.WellFormed) {v w : Nat} (hv : v < a.values.size)
    (hw : w < a.values.size) (same : (a.value v).key = (a.value w).key) : v = w := by
  have stored : ∀ u, u < a.values.size → a.valueIndex[(a.value u).key]? = some u := by
    intro u hu
    refine (wf.valueIndex _ u).mpr ⟨a.values[u], Array.getElem?_eq_getElem hu, ?_⟩
    simp [value, Array.getElem?_eq_getElem hu]
  have first := stored v hv
  rw [same, stored w hw] at first
  exact (Option.some.inj first).symm

/-- Nodes are stored once. -/
theorem node_injective (wf : a.WellFormed) {h g : Nat} {node : Node}
    (hh : a.node? h = some node) (hg : a.node? g = some node) : h = g := by
  have first := (wf.index node h).mpr hh
  rw [(wf.index node g).mpr hg] at first
  exact (Option.some.inj first).symm

/-- Nodes with equal expressions are equal when their children are. -/
theorem node_eq_of_expressionOf (wf : a.WellFormed) {n n' : Node}
    (values : ∀ v ∈ n.values, v < a.values.size) (values' : ∀ v ∈ n'.values, v < a.values.size)
    (children : ∀ c ∈ n.children, ∀ c' ∈ n'.children, a.expression c = a.expression c' → c = c')
    (same : a.expressionOf n = a.expressionOf n') : n = n' := by
  -- the expressions differ unless both nodes are of one kind, and these cases are left
  rcases n with var | _ | v | ⟨index, var, order⟩ | ⟨op, c⟩ | ⟨op, ⟨v, t⟩ | ⟨t, v⟩ | ⟨l, r⟩⟩ | ⟨c, k⟩ <;>
    rcases n' with var' | _ | v' | ⟨index', var', order'⟩ | ⟨op', c'⟩ |
      ⟨op', ⟨v', t'⟩ | ⟨t', v'⟩ | ⟨l', r'⟩⟩ | ⟨c', k'⟩ <;>
    simp only [expressionOf, reduceCtorEq, Tree.leaf.injEq, Tree.constant.injEq, Tree.slot.injEq,
      Tree.unary.injEq, Tree.valueTree.injEq, Tree.treeValue.injEq, Tree.treeTree.injEq,
      Tree.derivative.injEq] at same
  · rw [same]
  · rfl
  · rw [value_injective wf (values v (by simp [Node.values])) (values' v' (by simp [Node.values]))
      same]
  · obtain ⟨rfl, rfl, rfl⟩ := same
    rfl
  · obtain ⟨rfl, child⟩ := same
    rw [children c (by simp [Node.children]) c' (by simp [Node.children]) child]
  · obtain ⟨rfl, value, child⟩ := same
    rw [value_injective wf (values v (by simp [Node.values, Operands.values]))
      (values' v' (by simp [Node.values, Operands.values])) value,
      children t (by simp [Node.children, Operands.trees]) t'
        (by simp [Node.children, Operands.trees]) child]
  · obtain ⟨rfl, child, value⟩ := same
    rw [value_injective wf (values v (by simp [Node.values, Operands.values]))
      (values' v' (by simp [Node.values, Operands.values])) value,
      children t (by simp [Node.children, Operands.trees]) t'
        (by simp [Node.children, Operands.trees]) child]
  · obtain ⟨rfl, left, right⟩ := same
    rw [children l (by simp [Node.children, Operands.trees]) l'
        (by simp [Node.children, Operands.trees]) left,
      children r (by simp [Node.children, Operands.trees]) r'
        (by simp [Node.children, Operands.trees]) right]
  · obtain ⟨child, rfl⟩ := same
    rw [children c (by simp [Node.children]) c' (by simp [Node.children]) child]

/-- Two handles are equal if the expressions below them are. -/
theorem expression_injective (wf : a.WellFormed) {h g : Nat} (hh : h < a.count)
    (hg : g < a.count) (same : a.expression h = a.expression g) : h = g := by
  induction h using Nat.strongRecOn generalizing g with
  | _ h ih =>
    obtain ⟨n, hn⟩ := node?_isSome.mpr hh
    obtain ⟨n', hn'⟩ := node?_isSome.mpr hg
    rw [expression_eq hn, expression_eq hn'] at same
    have children : ∀ c ∈ n.children, ∀ c' ∈ n'.children,
        a.expression c = a.expression c' → c = c' := by
      intro c hc c' hc'
      have lt := a.child_lt h n hn c hc
      have lt' := a.child_lt g n' hn' c' hc'
      exact ih c lt (Nat.lt_trans lt hh) (Nat.lt_trans lt' hg)
    obtain rfl := node_eq_of_expressionOf wf (wf.values h n hn) (wf.values g n' hn') children same
    exact node_injective wf hn hn'

end Arena

end JetForm
