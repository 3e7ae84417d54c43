import JetForm.Proofs.Tree.Linear
import JetForm.Proofs.Tree.NormalForm

/-! # Orders of normal forms

    In a normal form every derivative is one of an unknown, and the pass has nothing left to do
    with it.  The metadata of a tree are computed before its derivatives are pushed: how often an
    unknown is differentiated is the sum of the orders above it.  Pushing keeps that sum, so what
    has been computed is in the end the highest order that is found in the tree. -/

namespace JetForm

namespace Tree

variable {var k : Nat} {t t' : Tree}

/-! ## Derivatives of unknowns -/

theorem onUnknowns_leafless (childless : t.children = []) : t.OnUnknowns := by
  intro c k occurs
  rcases mem_parts.mp occurs with rfl | ⟨d, hd, -⟩
  · cases childless
  · rw [childless] at hd
    cases hd

theorem onUnknowns_derivative (var k : Nat) : (derivative (.leaf var) k).OnUnknowns := by
  intro c j occurs
  rcases mem_parts.mp occurs with eq | ⟨d, hd, inner⟩
  · exact ⟨var, (Tree.derivative.inj eq).1⟩
  · obtain rfl := List.mem_singleton.mp hd
    exact onUnknowns_leafless rfl c j inner

/-- An operation adds no derivative. -/
theorem onUnknowns_operation (operation : ∀ c k, t ≠ .derivative c k)
    (children : ∀ c ∈ t.children, c.OnUnknowns) : t.OnUnknowns := by
  intro c k occurs
  rcases mem_parts.mp occurs with eq | ⟨d, hd, inner⟩
  · exact absurd eq.symm (operation c k)
  · exact children d hd c k inner

/-- Derivatives of unknowns are pushed to derivatives of unknowns. -/
theorem Pushes.onUnknowns (pushes : Pushes k t t') (plain : t.OnUnknowns) : t'.OnUnknowns := by
  induction pushes with
  | leaf var => exact onUnknowns_derivative var k
  | independent | constant => exact onUnknowns_leafless rfl
  | derivative c order =>
    obtain ⟨v, rfl⟩ := plain c order (mem_parts.mpr (Or.inl rfl))
    exact onUnknowns_derivative v (order + k)
  | afterNumber _ ih | beforeNumber _ _ ih => exact ih (plain.child _ List.mem_cons_self)
  | sign _ _ ih | fromNumber _ ih | timesNumber _ ih | scale _ _ ih =>
    apply onUnknowns_operation (by simp)
    intro c hc
    obtain rfl := List.mem_singleton.mp hc
    exact ih (plain.child _ List.mem_cons_self)
  | @sum op l l' r r' _ _ _ ihl ihr =>
    apply onUnknowns_operation (by simp)
    intro c hc
    obtain rfl | rfl : c = l' ∨ c = r' := by simpa [children] using hc
    · exact ihl (plain.child l (by simp [children]))
    · exact ihr (plain.child r (by simp [children]))

theorem onUnknowns_normalForm (normal : t.normalForm = some t') : t'.OnUnknowns := by
  induction t generalizing t' with
  | leaf | independent | constant | slot =>
    cases normal
    exact onUnknowns_leafless rfl
  | derivative c k ih =>
    obtain ⟨c', child, pushed⟩ := Option.bind_eq_some_iff.mp normal
    exact (pushes_of_push pushed).onUnknowns (ih child)
  | unary op c ih | valueTree op v c ih | treeValue op c v ih =>
    obtain ⟨c', child, rfl⟩ := Option.map_eq_some_iff.mp normal
    apply onUnknowns_operation (by simp)
    intro d hd
    obtain rfl := List.mem_singleton.mp hd
    exact ih child
  | treeTree op l r ihl ihr =>
    obtain ⟨l', left, rest⟩ := Option.bind_eq_some_iff.mp normal
    obtain ⟨r', right, rfl⟩ := Option.map_eq_some_iff.mp rest
    apply onUnknowns_operation (by simp)
    intro d hd
    obtain rfl | rfl : d = l' ∨ d = r' := by simpa [children] using hd
    · exact ihl left
    · exact ihr right

/-- There is nothing left to push. -/
theorem OnUnknowns.normalForm (plain : t.OnUnknowns) : t.normalForm = some t := by
  induction t with
  | leaf | independent | constant | slot => rfl
  | derivative c k =>
    obtain ⟨v, rfl⟩ := plain c k (mem_parts.mpr (Or.inl rfl))
    rfl
  | unary op c ih | valueTree op v c ih | treeValue op c v ih =>
    have child : c.normalForm = some c := ih (plain.child c List.mem_cons_self)
    exact Option.map_eq_some_iff.mpr ⟨c, child, rfl⟩
  | treeTree op l r ihl ihr =>
    have left : l.normalForm = some l := ihl (plain.child l (by simp [children]))
    have right : r.normalForm = some r := ihr (plain.child r (by simp [children]))
    exact Option.bind_eq_some_iff.mpr ⟨l, left, Option.map_eq_some_iff.mpr ⟨r, right, rfl⟩⟩

/-! ## Unknowns and orders -/

/-- An unknown that does not occur is not differentiated. -/
theorem diffOrder_of_not_dependsOn (absent : t.dependsOn var = false) : t.diffOrder var = 0 := by
  induction t with
  | leaf | independent | constant | slot => rfl
  | unary op c ih | valueTree op v c ih | treeValue op c v ih => exact ih absent
  | derivative c k ih =>
    have below : c.dependsOn var = false := absent
    rw [diffOrder, if_neg (ne_true_of_eq_false below), ih below]
  | treeTree op l r ihl ihr =>
    obtain ⟨left, right⟩ := Bool.or_eq_false_iff.mp absent
    rw [diffOrder, ihl left, ihr right, max_self]

/-- Terms without unknowns may be dropped. -/
theorem Pushes.dependsOn (pushes : Pushes k t t') (var : Nat) :
    t'.dependsOn var = t.dependsOn var := by
  induction pushes with
  | leaf | independent | constant | derivative => rfl
  | sign _ _ ih | afterNumber _ ih | fromNumber _ ih | timesNumber _ ih => exact ih
  | beforeNumber _ _ ih | scale _ _ ih => exact ih
  | sum _ _ _ ihl ihr => simp only [Tree.dependsOn, ihl, ihr]

/-- A pushed derivative adds its order to those of the unknowns that occur. -/
theorem Pushes.diffOrder (pushes : Pushes k t t') (var : Nat) :
    t'.diffOrder var = if t.dependsOn var then t.diffOrder var + k else 0 := by
  induction pushes with
  | leaf v => rfl
  | independent | constant => rfl
  | derivative c order =>
    show (if c.dependsOn var then c.diffOrder var + (order + k) else c.diffOrder var) =
      if c.dependsOn var then (if c.dependsOn var then _ else _) + k else 0
    cases occurs : c.dependsOn var with
    | true => exact (Nat.add_assoc _ _ _).symm
    | false => exact diffOrder_of_not_dependsOn occurs
  | sign _ _ ih | afterNumber _ ih | fromNumber _ ih | timesNumber _ ih => exact ih
  | beforeNumber _ _ ih | scale _ _ ih => exact ih
  | @sum op l l' r r' _ _ _ ihl ihr =>
    simp only [Tree.diffOrder, Tree.dependsOn, ihl, ihr]
    -- an operand without the unknown has order 0 and does not count
    by_cases left : l.dependsOn var = true <;> by_cases right : r.dependsOn var = true
    · simp [left, right, Nat.add_max_add_right]
    · simp [left, right, diffOrder_of_not_dependsOn (Bool.not_eq_true _ ▸ right)]
    · simp [left, right, diffOrder_of_not_dependsOn (Bool.not_eq_true _ ▸ left)]
    · simp [left, right]

theorem dependsOn_normalForm (normal : t.normalForm = some t') (var : Nat) :
    t'.dependsOn var = t.dependsOn var := by
  induction t generalizing t' with
  | leaf | independent | constant | slot =>
    cases normal
    rfl
  | derivative c k ih =>
    obtain ⟨c', child, pushed⟩ := Option.bind_eq_some_iff.mp normal
    exact ((pushes_of_push pushed).dependsOn var).trans (ih child)
  | unary op c ih | valueTree op v c ih | treeValue op c v ih =>
    obtain ⟨c', child, rfl⟩ := Option.map_eq_some_iff.mp normal
    have below := ih child
    exact below
  | treeTree op l r ihl ihr =>
    obtain ⟨l', left, rest⟩ := Option.bind_eq_some_iff.mp normal
    obtain ⟨r', right, rfl⟩ := Option.map_eq_some_iff.mp rest
    simp only [dependsOn, ihl left, ihr right]

/-- The orders of a tree are those of its normal form. -/
theorem diffOrder_normalForm (normal : t.normalForm = some t') (var : Nat) :
    t'.diffOrder var = t.diffOrder var := by
  induction t generalizing t' with
  | leaf | independent | constant | slot =>
    cases normal
    rfl
  | derivative c k ih =>
    obtain ⟨c', child, pushed⟩ := Option.bind_eq_some_iff.mp normal
    rw [(pushes_of_push pushed).diffOrder, dependsOn_normalForm child, ih child, diffOrder]
    cases occurs : c.dependsOn var with
    | true => rfl
    | false => exact (diffOrder_of_not_dependsOn occurs).symm
  | unary op c ih | valueTree op v c ih | treeValue op c v ih =>
    obtain ⟨c', child, rfl⟩ := Option.map_eq_some_iff.mp normal
    have below := ih child
    exact below
  | treeTree op l r ihl ihr =>
    obtain ⟨l', left, rest⟩ := Option.bind_eq_some_iff.mp normal
    obtain ⟨r', right, rfl⟩ := Option.map_eq_some_iff.mp rest
    simp only [diffOrder, ihl left, ihr right]

/-- In a tree whose derivatives are ones of unknowns the order of an unknown is the highest that is
    found. -/
theorem OnUnknowns.isGreatest (plain : t.OnUnknowns) (var : Nat) :
    IsGreatest {k | k = 0 ∨ .derivative (.leaf var) k ∈ t.parts} (t.diffOrder var) := by
  constructor
  · rcases Nat.eq_zero_or_pos (t.diffOrder var) with zero | positive
    · exact Or.inl zero
    · right
      by_contra lacks
      have lower : t.diffOrder var < t.diffOrder var := lt_of_lacks positive plain le_rfl lacks
      omega
  · rintro k (rfl | occurs)
    · exact Nat.zero_le _
    · by_contra above
      exact lacks_of_lt (Nat.not_le.mp above) occurs

end Tree

end JetForm
