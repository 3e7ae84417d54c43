import JetForm.Proofs.Differential.Split

/-! # The first-order form has the same solutions

    A jet satisfies the first-order equations exactly if its unknowns satisfy
    the equations that these were made from: an equation between lower entries
    holds on every jet, each last entry has an equation of its own, and no
    equation is left over.

    Conversely the equations between lower entries make a state a jet. -/

namespace JetForm

universe u

variable {K : Type u} [Field K]

/-- The meaning of trees without state entries, for given unknowns. -/
def Interpretation.onUnknowns (I : Interpretation K) (unknown : Nat → K) : Meaning K :=
  I.meaning unknown fun _ => 0

/-- A state satisfies a first-order system: there is an equation for each slot,
    and its value is the derivative of the entry. -/
def SplitSystem.Solves (I : Interpretation K) (a : Arena) (s : SplitSystem) (state : Int → K) :
    Prop :=
  ∀ k < s.slots.size, ∃ h, s.equations[k]? = some h ∧
    I.D (state k) = a.denote (I.onState state) h

/-- The extracted coefficients do not vanish. -/
def SplitSystem.Regular (I : Interpretation K) (a : Arena) (s : SplitSystem) : Prop :=
  ∀ c ∈ s.coefficients, a.denote (I.onState fun _ => 0) c.handle ≠ 0

/-- The equations and coefficients of a system are stored. -/
structure SplitSystem.Stored (a : Arena) (s : SplitSystem) : Prop where
  equations : ∀ h ∈ s.equations, h < a.count
  coefficients : ∀ c ∈ s.coefficients, c.handle < a.count

namespace SplitSystem.Stored

variable {I : Interpretation K} {a b : Arena} {s : SplitSystem}

theorem solves_grow (stored : s.Stored a) (wf : a.WellFormed) (grown : a.Extends b)
    (state : Int → K) : s.Solves I b state ↔ s.Solves I a state := by
  unfold Solves
  apply forall₂_congr
  intro k _
  apply exists_congr
  intro h
  apply and_congr_right
  intro listed
  rw [Arena.denote, Arena.denote, grown.tree wf (stored.equations h (List.mem_of_getElem? listed))]

theorem regular_grow (stored : s.Stored a) (wf : a.WellFormed) (grown : a.Extends b) :
    s.Regular I b ↔ s.Regular I a := by
  unfold Regular
  apply forall₂_congr
  intro c hc
  rw [Arena.denote, Arena.denote, grown.tree wf (stored.coefficients c hc)]

end SplitSystem.Stored

namespace Split.Stems

variable {I : Interpretation K} {unknown : Nat → K} {state : Int → K} {a b : Arena}
  {roots : List Nat} {ys : Nat → K} {s : SplitSystem}

/-- Each unknown has a block of equations, which starts at its first slot. -/
theorem exists_block (stems : Stems I unknown state a roots ys s b) {var : Nat} {n : Int}
    (known : s.registry.orders[var]? = some n) :
    ∃ q, Block I unknown state a roots ys s.registry s.assignment b (n, var) q ∧
      q.2 ∈ s.coefficients ∧
      ∀ j < n.toNat, s.equations[s.registry.start var + j]? = q.1[j]? := by
  obtain ⟨parts, equations, coefficients, blocks⟩ := stems.blocks
  have listed : s.registry.orders.zipIdx[var]? = some (n, var) := by simp [known]
  obtain ⟨q, part, block⟩ := exists_of_forall₂_left blocks listed
  refine ⟨q, block, ?_, ?_⟩
  · rw [coefficients]
    exact List.mem_map_of_mem (List.mem_of_getElem? part)
  · have layout : s.registry.Blocks (parts.map Prod.fst) := by
      apply Registry.blocks_of_forall₂
      exact blocks.imp fun entry q ⟨_, _, _, _, reduces⟩ => reduces.length
    intro j below
    obtain ⟨_, _, _, _, reduces⟩ := block
    rw [equations, layout.getElem? (by rw [List.getElem?_map, part, Option.map_some])
      (by rwa [reduces.length])]

theorem nonneg (stems : Stems I unknown state a roots ys s b) : ∀ n ∈ s.registry.orders, 0 ≤ n :=
  fun n hn => Int.le_of_lt (stems.assigned.positive n hn)

/-- An entry below the last one of its unknown has the next entry as its
    derivative. -/
theorem next_of_solves (stems : Stems I unknown state a roots ys s b)
    (solves : s.Solves I b state) {var : Nat} {n : Int} (known : s.registry.orders[var]? = some n)
    {j : Nat} (below : j + 1 < n.toNat) :
    I.D (state (s.registry.start var + j : Nat)) = state (s.registry.start var + (j + 1) : Nat) := by
  obtain ⟨q, ⟨e, root, -, -, reduces⟩, -, block⟩ := stems.exists_block known
  obtain ⟨h, listed, entry⟩ := reduces.lower j below
  have inside : s.registry.start var + j < s.slots.size := by
    rw [stems.slots]
    exact (List.getElem?_eq_some_iff.mp (Registry.keys_slots known (by omega))).1
  obtain ⟨g, equation, holds⟩ := solves _ inside
  rw [block j (by omega), listed] at equation
  cases equation
  rw [holds, ← Arena.denote_expression I.value_key, entry.2]
  rfl

/-- **Every solution of the first-order form is a jet.** -/
theorem isJet_of_solves (stems : Stems I unknown state a roots ys s b)
    (solves : s.Solves I b state) :
    I.IsJet s.registry (fun var => state (s.registry.start var : Nat)) state := by
  intro var n o known offset j below
  have inside : var < s.registry.size := (List.getElem?_eq_some_iff.mp known).1
  rw [Registry.offsets_eq stems.nonneg inside] at offset
  cases offset
  rw [← Int.natCast_add]
  induction j with
  | zero => rfl
  | succ j ih =>
    rw [Function.iterate_succ_apply', ← ih (by omega)]
    exact (stems.next_of_solves solves known (by omega)).symm

/-- On a jet, the derivative of entry `j` is derivative `j + 1` of the
    unknown. -/
theorem derivative_of_isJet (stems : Stems I unknown state a roots ys s b)
    (jet : I.IsJet s.registry unknown state) {var : Nat} {n : Int}
    (known : s.registry.orders[var]? = some n) {j : Nat} (below : j < n.toNat) :
    I.D (state (s.registry.start var + j : Nat)) = I.D^[j + 1] (unknown var) := by
  rw [jet.slot stems.nonneg (Registry.slot?_eq known below), Function.iterate_succ_apply']

/-- **A jet solves the first-order form exactly if its unknowns solve the
    equations.** -/
theorem holds_iff_solves (stems : Stems I unknown state a roots ys s b)
    (jet : I.IsJet s.registry unknown state) (regular : s.Regular I b) :
    (∀ (e root : Nat), roots[e]? = some root →
      (a.expression root).denote (I.meaning unknown state) = ys e) ↔ s.Solves I b state := by
  have nonzero : ∀ c ∈ s.coefficients, (b.expression c.handle).Closed →
      (b.expression c.handle).denote (I.onState state) ≠ 0 := by
    intro c mem closed zero
    apply regular c mem
    rw [← Arena.denote_expression I.value_key]
    exact (closed.denote I _ _ _ _).trans zero
  constructor
  · intro holds k inside
    rw [stems.slots] at inside
    obtain ⟨var, n, j, known, below, rfl⟩ := Registry.exists_of_lt_slots inside
    obtain ⟨q, ⟨e, root, -, equation, reduces⟩, mem, block⟩ := stems.exists_block known
    rw [block j below, stems.derivative_of_isJet jet known below]
    by_cases lower : j + 1 < n.toNat
    · -- the next entry holds the derivative
      obtain ⟨h, listed, entry⟩ := reduces.lower j lower
      refine ⟨h, listed, ?_⟩
      rw [← jet.slot stems.nonneg (Registry.slot?_eq known lower),
        ← Arena.denote_expression I.value_key, entry.2]
      rfl
    · -- the last entry has the equation of the unknown
      obtain ⟨h, listed, iff⟩ := reduces.last
      obtain rfl : j = n.toNat - 1 := by omega
      refine ⟨h, listed, ?_⟩
      rw [Nat.sub_add_cancel (by omega), ← Arena.denote_expression I.value_key]
      exact (iff jet (nonzero _ mem reduces.coefficient.2)).mp (holds e root equation)
  · intro solves e root equation
    have bound : e < roots.length := (List.getElem?_eq_some_iff.mp equation).1
    obtain ⟨var, inside, assigned⟩ := stems.assigned.onto e bound
    have known : s.registry.orders[var]? = some s.registry.orders[var] :=
      List.getElem?_eq_getElem inside
    have order := stems.assigned.positive _ (List.mem_of_getElem? known)
    obtain ⟨q, ⟨e', root', assigned', equation', reduces⟩, mem, block⟩ := stems.exists_block known
    -- the equation is that of the unknown which it is assigned to
    rw [assigned] at assigned'
    cases assigned'
    rw [equation] at equation'
    cases equation'
    obtain ⟨h, listed, iff⟩ := reduces.last
    have below : (s.registry.orders[var]).toNat - 1 < (s.registry.orders[var]).toNat := by omega
    have slot : s.registry.start var + ((s.registry.orders[var]).toNat - 1) < s.slots.size := by
      rw [stems.slots]
      exact (List.getElem?_eq_some_iff.mp (Registry.keys_slots known below)).1
    obtain ⟨g, listed', holds⟩ := solves _ slot
    rw [block _ below, listed] at listed'
    cases listed'
    rw [stems.derivative_of_isJet jet known below, Nat.sub_add_cancel (by omega),
      ← Arena.denote_expression I.value_key] at holds
    exact (iff jet (nonzero _ mem reduces.coefficient.2)).mpr holds

theorem stored (stems : Stems I unknown state a roots ys s b) : s.Stored b := by
  obtain ⟨parts, equations, coefficients, blocks⟩ := stems.blocks
  have each : ∀ q ∈ parts, (∀ h ∈ q.1, h < b.count) ∧ q.2.handle < b.count := by
    intro q hq
    obtain ⟨entry, -, _, _, -, -, reduces⟩ := exists_mem_of_forall₂_right blocks hq
    exact ⟨reduces.inside, reduces.coefficient.1⟩
  constructor
  · intro h hh
    rw [equations] at hh
    obtain ⟨l, hl, hh⟩ := List.mem_flatten.mp hh
    obtain ⟨q, hq, rfl⟩ := List.mem_map.mp hl
    exact (each q hq).1 h hh
  · intro c hc
    rw [coefficients] at hc
    obtain ⟨q, hq, rfl⟩ := List.mem_map.mp hc
    exact (each q hq).2

end Split.Stems

end JetForm
