import JetForm.Proofs.Reduction.Orders
import JetForm.Proofs.Reduction.StoredValues

/-! # Trees on a state

    Substituting state entries takes the unknowns and their derivatives out of a tree, and nothing
    else.  What is left depends on the same unknowns as before.  On a state that holds derivative
    `k` of unknown `i` in the slot of `(i, k)` it has the value that the tree has when unknowns and
    derivatives are read from a jet, whatever operations and values stand for.

    In a settled tree only one thing is refused: a derivative that is not below the order of its
    unknown. -/

namespace JetForm

universe u

namespace Tree

variable {slots : SlotTable} {t t' : Tree}

/-- The value of a tree where derivative `k` of unknown `var` is read as `jet var k`.  Derivatives
    of other trees are those of the meaning. -/
def denoteJets {α : Type u} (m : Meaning α) (jet : Nat → Nat → α) : Tree → α
  | .leaf var => jet var 0
  | .independent => m.time
  | .constant v => m.value v
  | .slot index _ _ => m.state index
  | .unary op child => m.unary op (child.denoteJets m jet)
  | .valueTree op v child => m.binary op (m.value v) (child.denoteJets m jet)
  | .treeValue op child v => m.binary op (child.denoteJets m jet) (m.value v)
  | .treeTree op left right => m.binary op (left.denoteJets m jet) (right.denoteJets m jet)
  | .derivative (.leaf var) order => jet var order
  | .derivative child order => m.derivative order (child.denoteJets m jet)

namespace Replaces

/-- State entries have the values of what they stand for. -/
theorem denote {α : Type u} {m : Meaning α} {jet : Nat → Nat → α}
    (read : ∀ var k s : Nat, slots.slot? var k = some s → jet var k = m.state s)
    (replaces : Replaces slots t t') : t'.denote m = t.denoteJets m jet := by
  induction replaces with
  | leaf slot => exact (read _ 0 _ slot).symm
  | derivative slot => exact (read _ _ _ slot).symm
  | independent | constant | slot => rfl
  | unary _ _ ih | valueTree _ _ _ ih | treeValue _ _ _ ih =>
    rw [Tree.denote, denoteJets, ih]
  | treeTree _ _ _ ihl ihr => rw [Tree.denote, denoteJets, ihl, ihr]

/-- A state entry depends on the unknown that it holds a derivative of. -/
theorem dependsOn (replaces : Replaces slots t t') (var : Nat) :
    t'.dependsOn var = t.dependsOn var := by
  induction replaces with
  | leaf | derivative | independent | constant | slot => rfl
  | unary _ _ ih | valueTree _ _ _ ih | treeValue _ _ _ ih => exact ih
  | treeTree _ _ _ ihl ihr => rw [Tree.dependsOn, Tree.dependsOn, ihl, ihr]

/-- No unknown and no derivative is left. -/
theorem parts (replaces : Replaces slots t t') :
    ∀ p ∈ t'.parts, (∀ var, p ≠ .leaf var) ∧ ∀ c k, p ≠ .derivative c k := by
  intro p hp
  induction replaces with
  | leaf | derivative | independent | constant | slot =>
    obtain rfl := List.mem_singleton.mp hp
    simp
  | unary _ _ ih | valueTree _ _ _ ih | treeValue _ _ _ ih =>
    rcases List.mem_cons.mp hp with rfl | hp
    · simp
    · exact ih hp
  | treeTree _ _ _ ihl ihr =>
    rcases List.mem_cons.mp hp with rfl | hp
    · simp
    · rcases List.mem_append.mp hp with left | right
      · exact ihl left
      · exact ihr right

end Replaces

end Tree

namespace Substitute

open Normalize (Settled)

variable {r : Registry} {a b : Arena}

/-! ## What is returned -/

/-- Node `p` of an arena is the state form of node `h` of the arena that it has grown out of. -/
structure StateForm (r : Registry) (a : Arena) (h : Nat) (b : Arena) (p : Nat) : Prop where
  inside : p < b.count
  states : ∀ g, b.Reaches p g →
    (∀ var, b.node? g ≠ some (.leaf var)) ∧ ∀ c k, b.node? g ≠ some (.derivative c k)
  mask : (b.info p).mask = (a.info h).mask
  value : ∀ {α : Type u} (m : Meaning α) (jet : Nat → Nat → α),
    (∀ var k s : Nat, r.slots.slot? var k = some s → jet var k = m.state s) →
    b.denote m p = (a.tree h).denoteJets m jet

/-- The values in the tree stay, and not only their keys. -/
theorem replaces_tree (wf : a.WellFormed) {h p : Nat} (inside : h < a.count) {t : Tree}
    (substituted : (a.expression h).substitute r r.slots = some t) (made : a.Makes t p b) :
    (a.tree h).Replaces r.slots (b.tree p) := by
  obtain ⟨f, restores, -⟩ := Arena.exists_restores wf
  rw [← restores.mapValues wf inside, ← restores.mapValues_substituted wf inside substituted made]
  exact (Tree.replaces_of_substitute substituted).mapValues f

/-- What substitution makes of a tree is its state form. -/
theorem stateForm_of_makes (wf : a.WellFormed) {h p : Nat} (inside : h < a.count) {t : Tree}
    (substituted : (a.expression h).substitute r r.slots = some t) (made : a.Makes t p b) :
    StateForm r a h b p := by
  have replaces := replaces_tree wf inside substituted made
  refine ⟨made.inside, ?_, ?_, ?_⟩
  · intro g reach
    have part : b.expression g ∈ t.parts := by
      rw [← made.expression]
      exact (Arena.mem_parts_expression made.inside).mpr ⟨g, reach, rfl⟩
    obtain ⟨unknown, derivative⟩ := (Tree.replaces_of_substitute substituted).parts _ part
    exact ⟨fun var stored => unknown var (Arena.expression_eq stored),
      fun c k stored => derivative _ k (Arena.expression_eq stored)⟩
  · apply Nat.eq_of_testBit_eq
    intro var
    rw [Arena.testBit_mask made.wellFormed made.inside, Arena.testBit_mask wf inside]
    exact replaces.dependsOn var
  · intro α m jet read
    exact replaces.denote read

/-! ## What is refused -/

/-- Below node `h` there is derivative `k` of an unknown, and the order of the unknown is not
    above `k`. -/
def Exceeds (r : Registry) (a : Arena) (h var k : Nat) : Prop :=
  ∃ g c n, a.Reaches h g ∧ a.node? g = some (.derivative c k) ∧ a.node? c = some (.leaf var) ∧
    r.orders[var]? = some n ∧ n ≤ k

/-- A registry with positive orders covers the arenas for no more unknowns than it lists. -/
theorem covers_of_orders (positive : ∀ n ∈ r.orders, 1 ≤ n) {size : Nat} (known : size ≤ r.size) :
    r.Covers size := by
  intro var inside
  have listed : var < r.orders.length := Nat.lt_of_lt_of_le inside known
  exact ⟨r.orders[var], List.getElem?_eq_getElem listed, positive _ (List.getElem_mem listed)⟩

/-- In a settled tree only derivatives that are not below the orders of their unknowns are
    refused. -/
theorem Refused.highest_of_settled {h g : Nat} {node : Node} {e : Error} (refused : Refused a r node e)
    (wf : a.WellFormed) (covers : r.Covers a.size) (settled : Settled a h) (reach : a.Reaches h g)
    (stored : a.node? g = some node) :
    ∃ c var k n, node = .derivative c k ∧ a.node? c = some (.leaf var) ∧
      r.orders[var]? = some n ∧ n ≤ (k : Int) ∧ e = .highestOutside k var := by
  cases refused with
  | @quotient op operands unquotable f =>
    exact absurd (settled.repeatable g op operands reach stored) unquotable
  | stateless missing e =>
    obtain ⟨t, eq⟩ := exists_entry covers (wf.admissible g _ stored)
    rw [eq] at missing
    cases missing
  | @compound c k other =>
    have whole := Arena.expression_eq stored
    obtain ⟨var, leaf⟩ := (settled.reach reach).plain _ k (Tree.mem_parts.mpr (Or.inl whole.symm))
    have below := Nat.lt_trans (a.child_lt g _ stored c (by simp [Node.children]))
      (Arena.lt_count stored)
    exact absurd (Arena.node?_of_leaf below leaf) (other var)
  | @unordered c k var unknown missing =>
    obtain ⟨n, known, -⟩ := covers var (wf.admissible c _ unknown)
    rw [known] at missing
    cases missing
  | highest unknown known above => exact ⟨_, _, _, _, rfl, unknown, known, above, rfl⟩

/-- So it is determined by the node how it is refused. -/
theorem Refused.unique {h g : Nat} {node : Node} {e e' : Error} (refused : Refused a r node e)
    (refused' : Refused a r node e') (wf : a.WellFormed) (covers : r.Covers a.size)
    (settled : Settled a h) (reach : a.Reaches h g) (stored : a.node? g = some node) : e = e' := by
  obtain ⟨c, var, k, n, rfl, unknown, -, -, rfl⟩ :=
    refused.highest_of_settled wf covers settled reach stored
  obtain ⟨c', var', k', n', same, unknown', -, -, rfl⟩ :=
    refused'.highest_of_settled wf covers settled reach stored
  cases same
  rw [unknown] at unknown'
  cases unknown'
  rfl

/-- A tree with such a derivative has no state form. -/
theorem Exceeds.substitute {h var k : Nat} (exceeds : Exceeds r a h var k) :
    (a.expression h).substitute r r.slots = none := by
  obtain ⟨g, c, n, reach, stored, unknown, known, above⟩ := exceeds
  have refused : Refused a r (.derivative c k) (.highestOutside k var) := .highest unknown known above
  rcases refused.substitute stored with none | ⟨op, operands, same, -⟩
  · exact Arena.expression_of_reaches (Tree.rebuild_none fun _ _ => rfl) reach none
  · cases same

/-- Substituting in a settled tree either finds the state form, or a derivative that is not below
    the order of its unknown. -/
theorem root_stateForm (wf : a.WellFormed) (covers : r.Covers a.size) {h : Nat}
    (settled : Settled a h) {memo : Memo}
    (known : Arena.Remembers (Tree.substitute r r.slots) memo a) :
    Ends (root r r.slots h memo) a
      (fun p b => (∀ var k, ¬ Exceeds r a h var k) ∧ StateForm.{u} r a h b p.1)
      fun e _ => ∃ var k, Exceeds r a h var k ∧ e = .highestOutside k var := by
  apply ((root_ends wf settled.inside known).and (root_refused wf settled.inside known)).mono
  · rintro p b ⟨⟨⟨t, substituted, made⟩, -⟩, -⟩
    refine ⟨?_, stateForm_of_makes wf settled.inside substituted made⟩
    intro var k exceeds
    rw [exceeds.substitute] at substituted
    cases substituted
  · rintro e b ⟨-, g, node, reach, stored, refused⟩
    obtain ⟨c, var, k, n, rfl, unknown, order, above, rfl⟩ :=
      refused.highest_of_settled wf covers settled reach stored
    exact ⟨var, k, ⟨g, c, n, reach, stored, unknown, order, above⟩, rfl⟩

end Substitute

end JetForm
