import JetForm.Proofs.Tree.Lowered
import JetForm.Proofs.Tree.Quotient

/-! # Solid trees

    A constructor that is asked for an operation on stored operands refuses it in
    one case only: a bare tree is divided by a number that has no reciprocal.  A
    tree is solid if this happens nowhere in it, so that it can be built in any
    arena.  Unlike the property of being repeatable this is a property of the
    expression alone, and a computable one. -/

namespace JetForm

/-- Can a bare tree be divided by the number?  No reciprocal is asked of zero. -/
def Number.divides (n : Number) : Bool :=
  n.isZero || n.reciprocal.isOk

/-- Can a bare tree be divided by the value? -/
def Value.divides : Value → Bool
  | .number n => n.divides
  | .external _ => true

namespace Number

theorem divides_iff {n : Number} :
    n.divides = true ↔ (n.isZero = false → ∃ r, n.reciprocal = .ok r) := by
  unfold divides
  cases n.isZero <;> cases n.reciprocal <;> simp [Except.isOk, Except.toBool]

/-- Integers apart, every number but zero has a reciprocal. -/
theorem divides_of_not_int {n : Number} (other : ∀ k, n ≠ .int k) : n.divides = true := by
  rw [divides_iff]
  intro nonzero
  cases n with
  | int k => exact absurd rfl (other k)
  | bool b =>
    cases b with
    | false => cases nonzero
    | true =>
      have quotient : Number.reciprocal (.bool true) =
          if (1 == (0 : Float)) = true then .error .doubleByZero else .ok (ofFloat (1 / 1)) := rfl
      exact ⟨_, quotient.trans (if_neg (by decide +kernel))⟩
  | double x origin => exact ⟨_, if_neg (ne_true_of_eq_false nonzero)⟩
  | complex z => exact ⟨_, if_neg (ne_true_of_eq_false nonzero)⟩
  | wide x origin =>
    cases x <;> exact ⟨_, rfl⟩

@[simp] theorem divides_key (n : Number) : n.key.divides = n.divides := by
  cases n with
  | int | bool => rfl
  | double | complex | wide =>
    rw [divides_of_not_int (by simp [key]), divides_of_not_int (by simp)]

end Number

@[simp] theorem Value.divides_key (v : Value) : v.key.divides = v.divides := by
  cases v with
  | number n => exact n.divides_key
  | external f => rfl

namespace Tree

/-- Can the operation be recorded with this tree and this value? -/
def divisible (op : BinaryOp) (t : Tree) (v : Value) : Bool :=
  op != .rdivide || !t.isBare || v.divides

/-- Can all operations of the tree be recorded? -/
def solid : Tree → Bool
  | .leaf _ | .independent | .constant _ | .slot .. => true
  | .unary _ c => c.solid
  | .valueTree _ _ t => t.solid
  | .treeValue op t v => divisible op t v && t.solid
  | .treeTree _ l r => l.solid && r.solid
  | .derivative c _ => c.solid

theorem solid_of_child {t : Tree} (solid : t.solid = true) : ∀ c ∈ t.children, c.solid = true := by
  intro c hc
  cases t <;> simp_all [children, Tree.solid]
  next => rcases hc with rfl | rfl <;> tauto

/-- Has every number that the tree divides by a reciprocal, whatever it divides? -/
def invertible : Tree → Bool
  | .leaf _ | .independent | .constant _ | .slot .. => true
  | .unary _ c => c.invertible
  | .valueTree _ _ t => t.invertible
  | .treeValue op t v => (op != .rdivide || v.divides) && t.invertible
  | .treeTree _ l r => l.invertible && r.invertible
  | .derivative c _ => c.invertible

theorem invertible_of_child {t : Tree} (invertible : t.invertible = true) :
    ∀ c ∈ t.children, c.invertible = true := by
  intro c hc
  cases t <;> simp_all [children, Tree.invertible]
  next => rcases hc with rfl | rfl <;> tauto

/-- A tree is refused as a dividend only where the number has no reciprocal. -/
theorem inverse_of_not_divisible {op : BinaryOp} {t : Tree} {v : Value}
    (refused : divisible op t v = false) : (op != .rdivide || v.divides) = false := by
  simp only [divisible, Bool.or_eq_false_iff] at refused ⊢
  exact ⟨refused.1.1, refused.2⟩

/-- An invertible tree is solid: there is no number in it that could not divide a bare part. -/
theorem solid_of_invertible {t : Tree} (invertible : t.invertible = true) : t.solid = true := by
  induction t with
  | leaf | independent | constant | slot => rfl
  | unary op c ih | valueTree op v c ih | derivative c k ih => exact ih invertible
  | treeValue op t v ih =>
    obtain ⟨divides, child⟩ := Bool.and_eq_true_iff.mp invertible
    refine Bool.and_eq_true_iff.mpr ⟨?_, ih child⟩
    rcases Bool.or_eq_true _ _ ▸ divides with other | divides
    · simp [divisible, other]
    · simp [divisible, divides]
  | treeTree op l r ihl ihr =>
    obtain ⟨left, right⟩ := Bool.and_eq_true_iff.mp invertible
    exact Bool.and_eq_true_iff.mpr ⟨ihl left, ihr right⟩

/-- Trees without bare parts are solid. -/
theorem solid_of_lowered {t : Tree} (low : t.lowered 0 = true) : t.solid = true := by
  have other : ∀ t : Tree, t.lowered 0 = true → t.isBare = false := by
    intro t low
    cases t <;> simp_all [lowered, isBare]
    omega
  induction t with
  | leaf | slot | independent | constant => rfl
  | unary op c ih => exact ih low
  | valueTree op v t ih => exact ih low
  | derivative c k => cases low
  | treeValue op t v ih =>
    have low : t.lowered 0 = true := low
    simp [solid, divisible, other t low, ih low]
  | treeTree op l r ihl ihr =>
    obtain ⟨left, right⟩ := Bool.and_eq_true_iff.mp low
    simp [solid, ihl left, ihr right]

end Tree

namespace Arena

variable {a : Arena}

/-- An operation can be recorded if no bare operand is divided by a number
    without a reciprocal. -/
theorem quotable_treeValue {op : BinaryOp} {t v : Nat} (inside : t < a.count) :
    a.Quotable op (.treeValue t v) ↔
      Tree.divisible op (a.expression t) (a.value v).key = true := by
  rw [Tree.divisible, isBare_expression inside, Value.divides_key]
  -- only a quotient of a bare tree asks for a reciprocal
  by_cases divides : op = .rdivide
  · subst divides
    cases bare : a.isBare t with
    | false =>
      simp only [Bool.not_false, Bool.or_true, Bool.true_or, iff_true]
      rintro _ _ _ - ⟨⟩ bare'
      rw [bare] at bare'
      cases bare'
    | true =>
      cases value : a.value v with
      | external f =>
        simp only [Value.divides, Bool.or_true, iff_true]
        rintro _ _ _ - ⟨⟩ - number
        rw [value] at number
        cases number
      | number n =>
        simp only [Value.divides, bne_self_eq_false, Bool.not_true, Bool.false_or,
          Number.divides_iff]
        constructor
        · exact fun quotable => quotable t v n rfl rfl bare value
        · rintro reciprocal _ _ _ - ⟨⟩ - number
          rw [value] at number
          cases number
          exact reciprocal
  · have other : (op != .rdivide) = true := by simpa using divides
    simp only [other, Bool.true_or, iff_true]
    exact fun _ _ _ eq => absurd eq divides

theorem quotable_of_treeless {op : BinaryOp} {operands : Operands}
    (other : ∀ t v, operands ≠ .treeValue t v) : a.Quotable op operands :=
  fun t v _ _ eq => absurd eq (other t v)

/-- An operation on stored operands is a solid tree if its operands are, and if
    it can be recorded. -/
theorem solid_expressionOf {op : BinaryOp} {operands : Operands}
    (stored : a.OperandsStored operands) :
    (a.expressionOf (.binary op operands)).solid = true ↔
      a.Quotable op operands ∧ ∀ t ∈ operands.trees, (a.expression t).solid = true := by
  cases operands with
  | valueTree v t =>
    simp [expressionOf, Tree.solid, Operands.trees, quotable_of_treeless]
  | treeValue t v =>
    rw [quotable_treeValue (stored.1 t (by simp [Operands.trees]))]
    simp [expressionOf, Tree.solid, Operands.trees]
  | treeTree l r =>
    simp [expressionOf, Tree.solid, Operands.trees, quotable_of_treeless]

/-- Recording a node again on solid children makes a solid tree, and it fails only if
    there is none, with a fault. -/
theorem copyNode_solid (wf : a.WellFormed) {child : Nat → Nat} {h : Nat} {node : Node}
    (hn : a.node? h = some node)
    (below : ∀ c ∈ node.children, child c < a.count ∧ (a.expression (child c)).solid = true) :
    Ends (copyNode child h node) a
      (fun r b => a.Makes (a.expressionOf (node.mapChildren child)) r b ∧
        (a.expressionOf (node.mapChildren child)).solid = true)
      fun e _ => (a.expressionOf (node.mapChildren child)).solid = false ∧ ∃ f, e = .fault f := by
  have inside : ∀ c ∈ node.children, child c < a.count := fun c hc => (below c hc).1
  apply ((copyNode_makes wf hn inside).and (copyNode_exact wf hn inside)).mono
  · rintro r b ⟨made, quotable⟩
    refine ⟨made, ?_⟩
    cases node with
    | leaf | independent | constant | slot => rfl
    | unary op c => exact (below c (by simp [Node.children])).2
    | derivative c k => exact (below c (by simp [Node.children])).2
    | binary op operands =>
      refine (solid_expressionOf (operandsStored_mapTrees wf hn inside)).mpr
        ⟨quotable op operands rfl, ?_⟩
      intro t ht
      obtain ⟨c, hc, rfl⟩ := mem_trees_mapTrees.mp ht
      exact (below c hc).2
  · rintro _ _ ⟨-, op, operands, f, rfl, refused, rfl⟩
    refine ⟨?_, f, rfl⟩
    rw [← Bool.not_eq_true]
    intro solid
    exact refused ((solid_expressionOf (operandsStored_mapTrees wf hn inside)).mp solid).1

/-- A product or quotient with a value makes its expression, or cannot be
    recorded because of a fault. -/
theorem treeValue_exact (wf : a.WellFormed) (op : BinaryOp) {t v : Nat} (ht : t < a.count)
    (hv : v < a.values.size) :
    Ends (binary op (.treeValue t v)) a
      (fun h b => a.Makes (.treeValue op (a.expression t) (a.value v).key) h b ∧
        Tree.divisible op (a.expression t) (a.value v).key = true)
      fun e _ => Tree.divisible op (a.expression t) (a.value v).key = false ∧
        ∃ f, e = .fault f := by
  have stored : a.OperandsStored (.treeValue t v) := by
    constructor
    · simpa [Operands.trees] using ht
    · simpa [Operands.values] using hv
  apply ((treeValue_makes wf op ht hv).and (binary_exact wf op stored)).mono
  · rintro _ _ ⟨made, quotable, -⟩
    exact ⟨made, (quotable_treeValue ht).mp quotable⟩
  · rintro _ _ ⟨-, refused, fault⟩
    rw [quotable_treeValue ht, Bool.not_eq_true] at refused
    exact ⟨refused, fault⟩

end Arena

end JetForm
