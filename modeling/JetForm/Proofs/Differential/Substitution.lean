import JetForm.Proofs.Differential.Interpretation
import JetForm.Proofs.Reduction.Slots
import JetForm.Proofs.Reduction.Substitute

/-! # Jets

    A state is the jet of some unknowns if it holds their derivatives, each in
    its slot.  On a jet a tree with state entries has the value that the tree
    had before, and it needs the unknowns no more. -/

namespace JetForm

universe u

variable {K : Type u} [Field K] (I : Interpretation K)

namespace Interpretation

/-- Entry `o + j` of the state is derivative `j` of the unknown with offset
    `o`. -/
def IsJet (r : Registry) (unknown : Nat → K) (state : Int → K) : Prop :=
  ∀ (var : Nat) (n o : Int), r.orders[var]? = some n → r.offsets[var]? = some o →
    ∀ j : Nat, j < n → state (o + j) = I.D^[j] (unknown var)

variable {I} {r : Registry} {unknown : Nat → K} {state : Int → K}

theorem IsJet.slot (jet : I.IsJet r unknown state) (nonneg : ∀ n ∈ r.orders, 0 ≤ n)
    {var k s : Nat} (slot : r.slots.slot? var k = some s) :
    state s = I.D^[k] (unknown var) := by
  obtain ⟨n, known, below, rfl⟩ := Registry.exists_of_slot? slot
  have inside : var < r.size := (List.getElem?_eq_some_iff.mp known).1
  have entry := jet var n _ known (Registry.offsets_eq nonneg inside) k (by omega)
  rwa [← Int.natCast_add] at entry

end Interpretation

namespace Tree

variable {I} {r : Registry} {unknown : Nat → K} {state : Int → K}

/-- On a jet, state entries stand for the derivatives that they replace. -/
theorem denote_substitute (jet : I.IsJet r unknown state) (nonneg : ∀ n ∈ r.orders, 0 ≤ n)
    (free : Nat → K) {t t' : Tree} (substituted : t.substitute r r.slots = some t') :
    t'.denote (I.meaning free state) = t.denote (I.meaning unknown state) := by
  have entry : ∀ {var k : Nat} {t' : Tree}, Tree.entry r.slots var k = some t' →
      t'.denote (I.meaning free state) = I.D^[k] (unknown var) := by
    intro var k t' eq
    obtain ⟨s, slot, rfl⟩ := Option.map_eq_some_iff.mp eq
    exact jet.slot nonneg slot
  show t'.denote
    { I.meaning unknown state with leaf := free, derivative := fun k x => I.D^[k] x } = _
  refine rebuild_denote (Q := fun _ => True) (fun _ _ _ _ => trivial) ?_ ?_ trivial substituted
  · exact fun var t' _ eq => entry eq
  · intro c k c' t' _ _ _ eq
    obtain ⟨_, -, replaced⟩ := Option.bind_eq_some_iff.mp eq
    cases c with
    | leaf var =>
      obtain ⟨n, -, lower⟩ := Option.bind_eq_some_iff.mp replaced
      split at lower
      next => cases lower
      next => exact entry lower
    | independent | constant | slot | unary | valueTree | treeValue | treeTree | derivative =>
      cases replaced

end Tree

end JetForm
