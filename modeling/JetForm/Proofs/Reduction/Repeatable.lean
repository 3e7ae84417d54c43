import JetForm.Proofs.Tree.Solid

/-! # Trees that can be recorded again

    A stored quotient need not be quotable.  A node is repeatable if every operation
    below it is: then the same operations can be recorded again, in this arena and
    in every later one.  This is so if and only if the expression is solid. -/

namespace JetForm

namespace Arena

variable {a b : Arena}

/-- No operation below the node is refused when it is recorded again. -/
def Repeatable (a : Arena) (h : Nat) : Prop :=
  ∀ g op operands, a.Reaches h g → a.node? g = some (.binary op operands) →
    a.Quotable op operands

/-- What a stored node reaches in a larger arena, it has reached before. -/
theorem Extends.reaches (grown : a.Extends b) {h g : Nat} (inside : h < a.count)
    (reach : b.Reaches h g) : a.Reaches h g ∧ g < a.count := by
  induction reach with
  | refl => exact ⟨Reaches.refl a h, inside⟩
  | @tail g c _ hc ih =>
    obtain ⟨before, below⟩ := ih
    have hc : c ∈ a.children g := by rwa [children, ← grown.node_eq below]
    have reach := before.trans (Reaches.child hc)
    exact ⟨reach, reach.lt_count inside⟩

theorem operandsStored (wf : a.WellFormed) {h : Nat} {op : BinaryOp} {operands : Operands}
    (hn : a.node? h = some (.binary op operands)) : a.OperandsStored operands := by
  refine ⟨?_, wf.values h _ hn⟩
  intro t ht
  exact Nat.lt_trans (a.child_lt h _ hn t ht) (lt_count hn)

theorem Repeatable.grow (wf : a.WellFormed) (grown : a.Extends b) {h : Nat} (inside : h < a.count)
    (repeatable : a.Repeatable h) : b.Repeatable h := by
  intro g op operands reach hn
  obtain ⟨before, below⟩ := grown.reaches inside reach
  rw [grown.node_eq below] at hn
  exact (repeatable g op operands before hn).grow grown (operandsStored wf hn)

theorem Repeatable.child {h c : Nat} (repeatable : a.Repeatable h) (hc : c ∈ a.children h) :
    a.Repeatable c := by
  intro g op operands reach hn
  exact repeatable g op operands ((Reaches.child hc).trans reach) hn

/-- What can be recorded again is what is solid. -/
theorem repeatable_iff (wf : a.WellFormed) {h : Nat} (inside : h < a.count) :
    a.Repeatable h ↔ (a.expression h).solid = true := by
  induction h using Nat.strongRecOn with
  | _ h ih =>
  obtain ⟨node, hn⟩ := node?_isSome.mpr inside
  have below : ∀ c ∈ node.children, c < h ∧ c < a.count := fun c hc =>
    ⟨a.child_lt h node hn c hc, Nat.lt_trans (a.child_lt h node hn c hc) inside⟩
  have child : ∀ c ∈ node.children, (a.Repeatable c ↔ (a.expression c).solid = true) :=
    fun c hc => ih c (below c hc).1 (below c hc).2
  -- the node itself, and what its children reach
  have parts : a.Repeatable h ↔ (∀ op operands, node = .binary op operands →
      a.Quotable op operands) ∧ ∀ c ∈ node.children, a.Repeatable c := by
    constructor
    · intro repeatable
      refine ⟨?_, fun c hc => repeatable.child (by rwa [children_eq hn])⟩
      rintro op operands rfl
      exact repeatable h op operands (Reaches.refl a h) hn
    · rintro ⟨quotable, children⟩ g op operands reach stored
      rcases reaches_iff.mp reach with rfl | ⟨c, hc, reach⟩
      · rw [hn] at stored
        exact quotable op operands (Option.some.inj stored)
      · rw [children_eq hn] at hc
        exact children c hc g op operands reach stored
  rw [parts, expression_eq hn]
  cases node with
  | leaf | independent | constant | slot => simp [expressionOf, Tree.solid, Node.children]
  | unary op c =>
    simpa [expressionOf, Tree.solid, Node.children] using child c (by simp [Node.children])
  | derivative c k =>
    simpa [expressionOf, Tree.solid, Node.children] using child c (by simp [Node.children])
  | binary op operands =>
    rw [solid_expressionOf (operandsStored wf hn)]
    apply and_congr
    · simp
    · exact forall₂_congr child

end Arena

end JetForm
