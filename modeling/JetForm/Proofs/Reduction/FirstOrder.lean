import JetForm.Proofs.Reduction.Climb

/-! # Reduction preserves the solutions

    `FirstOrder.reduce` leads a problem through all stages.  A state satisfies
    the resulting system exactly if it is the jet of unknowns that satisfy the
    traced equations. -/

namespace JetForm

universe u

variable {K : Type u} [Field K] {I : Interpretation K}

/-- What is recorded has no state entries. -/
theorem Tree.denote_recorded {t : Tree} (recorded : t.recorded = true) (unknown : Nat → K)
    (state state' : Int → K) :
    t.denote (I.meaning unknown state) = t.denote (I.meaning unknown state') := by
  induction t with
  | leaf | independent => rfl
  | constant | slot => cases recorded
  | unary op c ih | derivative c k ih =>
    simp only [Tree.denote, ih recorded]
    rfl
  | valueTree op v c ih =>
    simp only [Tree.denote, ih (Bool.and_eq_true_iff.mp recorded).2]
    rfl
  | treeValue op c v ih =>
    simp only [Tree.denote, ih (Bool.and_eq_true_iff.mp recorded).1]
    rfl
  | treeTree op l r ihl ihr =>
    obtain ⟨left, right⟩ := Bool.and_eq_true_iff.mp recorded
    simp only [Tree.denote, ihl left, ihr right]
    rfl

/-- The normal form of a recorded tree has its value, and real numbers only. -/
theorem Normalize.Normalizes.denote_recorded {a b : Arena} {h r : Nat}
    (normal : Normalizes a h b r) (wf : a.WellFormed) (inside : h < a.count)
    (recorded : (a.expression h).recorded = true) (unknown : Nat → K) (state : Int → K) :
    (b.expression r).real = true ∧ (b.expression r).denote (I.meaning unknown state) =
      a.denote (I.onUnknowns unknown) h := by
  refine ⟨Tree.real_normalForm normal.normalForm (Tree.real_of_recorded recorded), ?_⟩
  rw [Tree.denote_normalForm I unknown state normal.normalForm
      (Tree.numeric_of_recorded recorded) (Arena.ordered_expression wf inside),
    Tree.denote_recorded recorded unknown state fun _ => 0]
  exact Arena.denote_expression I.value_key h

variable (I) in
/-- The traced equations hold for some unknowns; `ys e` stands on the right of
    equation `e`. -/
def TracedProblem.Holds (w : Workspace) (p : TracedProblem) (unknown : Nat → K) (ys : Nat → K) :
    Prop :=
  ∀ (e : Nat) (equation : Traced), p.equations[e]? = some equation →
    (w.arena equation.arena).denote (I.onUnknowns unknown) equation.handle = ys e

namespace FirstOrder

/-- The first-order form stems from the traced equations. -/
theorem splitEquations_runs (faithful : I.Faithful) {w : Workspace} {p : TracedProblem}
    (stored : p.Stored w) (domain : Domain Float) {posed : Posed} {ys : Nat → K}
    (stand : posed.rhs.Stand I ys) (unknown : Nat → K) (state : Int → K) :
    Runs (splitEquations p domain posed) w fun w' s => ∃ a roots,
      Split.Stems I unknown state a roots ys s (w'.arena p.arena) ∧
      ((∀ (e root : Nat), roots[e]? = some root →
        (a.expression root).denote (I.meaning unknown state) = ys e) ↔
        p.Holds I w unknown ys) := by
  intro wf
  apply splitEquations_passes wf stored domain
    (fun sides _ => ∀ (e : Nat) s, sides[e]? = some s → s.Is I (ys e))
    (fun s b => ∃ a roots, Split.Stems I unknown state a roots ys s b ∧
      ((∀ (e root : Nat), roots[e]? = some root →
        (a.expression root).denote (I.meaning unknown state) = ys e) ↔ p.Holds I w unknown ys))
    (fun _ _ => trivial)
    fun w' grown => rightHandSides_runs faithful p.arena _ stand grown.after
  intro roots r a sides staged sides_are
  -- a root in normal form has the value of its equation
  have value : List.Forall₂ (fun (e : Traced) root => (a.expression root).real = true ∧
      (a.expression root).denote (I.meaning unknown state) =
        (w.arena e.arena).denote (I.onUnknowns unknown) e.handle) p.equations roots := by
    have forms := List.forall₂_map_left_iff.mp staged.forms
    refine ((List.forall₂_and_left _ _).mpr ⟨stored.equations, forms⟩).imp ?_
    rintro e root ⟨⟨known, same⟩, normalizes⟩
    rw [same]
    exact normalizes.denote_recorded (wf p.arena) (same ▸ known.inside) (same ▸ known.recorded)
      unknown state
  have real : ∀ root ∈ roots, (a.expression root).real = true := by
    intro root hr
    obtain ⟨_, -, known, -⟩ := exists_mem_of_forall₂_right value hr
    exact known
  have split : Ends (Arena.split roots r domain (some sides) posed.options) a
      (fun s b => s.registry = r ∧ Split.Stems I unknown state a roots ys s b) fun _ _ => True :=
    Split.split_stems faithful staged.wellFormed real sides_are
  apply split.weaken
  rintro s b ⟨-, stems⟩
  refine ⟨⟨stems.wellFormed, stems.grown⟩, a, roots, stems, ?_⟩
  constructor
  · intro holds e equation listed
    obtain ⟨root, listed', -, eq⟩ := exists_of_forall₂_left value listed
    rw [← eq]
    exact holds e root listed'
  · intro holds e root listed
    obtain ⟨equation, listed', -, eq⟩ := exists_of_forall₂_right value listed
    rw [eq]
    exact holds e equation listed'

variable (I) in
/-- A first-order system has the solutions of the traced equations. -/
structure Preserves (w : Workspace) (p : TracedProblem) (ys : Nat → K) (a : Arena)
    (s : SplitSystem) : Prop where
  stored : s.Stored a
  slots : s.slots = s.registry.slots
  iff : s.Regular I a → ∀ unknown state, I.IsJet s.registry unknown state →
    (p.Holds I w unknown ys ↔ s.Solves I a state)
  isJet : ∀ state, s.Solves I a state → ∃ unknown, I.IsJet s.registry unknown state

theorem splitEquations_preserves (faithful : I.Faithful) {w : Workspace} {p : TracedProblem}
    (stored : p.Stored w) (domain : Domain Float) {posed : Posed} {ys : Nat → K}
    (stand : posed.rhs.Stand I ys) :
    Runs (splitEquations p domain posed) w fun w' s =>
      Preserves I w p ys (w'.arena p.arena) s := by
  have stems := splitEquations_runs faithful stored domain stand
  intro wf
  apply Ends.intro
  · intro s w' run
    -- one run, seen for each choice of unknowns and state
    obtain ⟨grown, a, roots, base, -⟩ := (stems (fun _ => 0) fun _ => 0).of_ok wf run
    refine ⟨grown, base.stored, base.slots, ?_, ?_⟩
    · intro regular unknown state jet
      obtain ⟨-, a, roots, stems, holds⟩ := (stems unknown state).of_ok wf run
      rw [← holds]
      exact stems.holds_iff_solves jet regular
    · intro state solves
      obtain ⟨-, a, roots, stems, -⟩ := (stems (fun _ => 0) state).of_ok wf run
      exact ⟨_, stems.isJet_of_solves solves⟩
  · exact fun _ _ _ => trivial

end FirstOrder

/-- Traced equations keep their values. -/
theorem TracedProblem.Stored.holds_grow {w w' : Workspace} {p : TracedProblem} (stored : p.Stored w)
    (grown : w.Grows w') (unknown : Nat → K) (ys : Nat → K) :
    p.Holds I w' unknown ys ↔ p.Holds I w unknown ys := by
  unfold Holds
  apply forall₃_congr
  intro e equation listed
  have known := (stored.equations equation (List.mem_of_getElem? listed)).1
  rw [Arena.denote, Arena.denote,
    (grown.arena _ known.arena).tree (grown.before _) known.inside]

namespace FirstOrder

theorem Preserves.grow {w w' : Workspace} {p : TracedProblem} {ys : Nat → K} {a b : Arena}
    {s : SplitSystem} (preserves : Preserves I w' p ys a s) (stored : p.Stored w)
    (grown : w.Grows w') (wf : a.WellFormed) (extended : a.Extends b) :
    Preserves I w p ys b s := by
  have known := preserves.stored
  refine ⟨⟨?_, ?_⟩, preserves.slots, ?_, ?_⟩
  · exact fun h hh => extended.lt_count (known.equations h hh)
  · exact fun c hc => extended.lt_count (known.coefficients c hc)
  · intro regular unknown state jet
    rw [known.solves_grow wf extended, ← stored.holds_grow grown]
    exact preserves.iff ((known.regular_grow wf extended).mp regular) unknown state jet
  · intro state solves
    exact preserves.isJet state ((known.solves_grow wf extended state).mp solves)

/-- Every stage of a reduction. -/
theorem reduce_runs (faithful : I.Faithful) {w : Workspace} {posed : Posed}
    (lawful : posed.Lawful) {ys : Nat → K} (stand : posed.rhs.Stand I ys) :
    Runs (reduce posed) w fun w' s => ∃ p w₁,
      trace posed.operators posed.domain posed.orders w = .ok p w₁ ∧
      Preserves I w₁ p ys (w'.arena s.arena) s.system := by
  unfold reduce
  dsimp only
  -- the conditions are looked at last, so the system that is returned is the one that was split
  by_cases both : (posed.left.isSome && posed.right.isSome) = true
  · rw [if_pos both]
    exact Runs.thrown
  rw [if_neg both]
  apply Runs.bind (trace_runs lawful.operators posed.domain posed.orders).remember
  intro p w₁ _ known
  obtain ⟨stored, traced⟩ := known
  apply Runs.bindDomain
  intro given _
  apply Runs.bind (joinDomains_runs given p.equations)
  intro domain w₂ later same
  obtain rfl := same
  apply Runs.bind (splitEquations_preserves faithful stored domain stand)
  intro system w₃ grown₃ preserves
  have preserved : ∀ w', w₃.Grows w' → Preserves I w₂ p ys (w'.arena p.arena) system := by
    intro w' grown
    have inside := (stored.grow grown₃).arena
    exact preserves.grow stored later (grown.before _) (grown.arena _ inside)
  apply Runs.bindGet
  apply Runs.bindExcept
  intro field _
  split
  · intro wf
    exact Runs.pure ⟨p, w₂, traced, preserved w₃ (Workspace.Grows.refl wf)⟩ wf
  · next source endpoint found =>
    have lawful' : source.Lawful :=
      (given_of_conditionEnd found).elim (lawful.left source) (lawful.right source)
    have fit := (stored.grow grown₃).fits
    have keeps := ConditionSource.lawful_iff_keeps.mp lawful'
    apply Runs.bind
      (fixState_runs inherited_always fit domain preserves.slots posed.options keeps endpoint)
    intro fixed w₄ grown₄ _
    apply Runs.pure
    exact ⟨p, w₂, traced, preserved w₄ grown₄⟩

/-! ## All stages -/

/-- **Reduction preserves the solutions.**  A jet satisfies the first-order
    system exactly if its unknowns satisfy the traced equations, and every
    solution of the system is a jet. -/
theorem reduce_preserves (faithful : I.Faithful) {posed : Posed} (lawful : posed.Lawful)
    {ys : Nat → K} (stand : posed.rhs.Stand I ys) {w w' : Workspace} (wf : w.WellFormed)
    {s : FirstOrderSystem} (run : reduce posed w = .ok s w') :
    ∃ p w₁, trace posed.operators posed.domain posed.orders w = .ok p w₁ ∧
      (s.system.Regular I (w'.arena s.arena) →
        ∀ unknown state, I.IsJet s.system.registry unknown state →
          (p.Holds I w₁ unknown ys ↔ s.system.Solves I (w'.arena s.arena) state)) ∧
      ∀ state, s.system.Solves I (w'.arena s.arena) state →
        ∃ unknown, I.IsJet s.system.registry unknown state := by
  obtain ⟨-, p, w₁, traced, preserves⟩ := (reduce_runs faithful lawful stand).of_ok wf run
  exact ⟨p, w₁, traced, preserves.iff, preserves.isJet⟩

/-- The hypotheses can be met: `u' = 1` is reduced to a regular system. -/
theorem reduce_preserves_climb : ∃ s w', reduce climb default = .ok s w' ∧
    s.system.Regular Interpretation.rational (w'.arena s.arena) ∧
    ∃ p w₁, trace climb.operators climb.domain climb.orders default = .ok p w₁ ∧
      (s.system.Regular Interpretation.rational (w'.arena s.arena) →
        ∀ unknown state, Interpretation.rational.IsJet s.system.registry unknown state →
          (p.Holds Interpretation.rational w₁ unknown (fun _ => 1) ↔
            s.system.Solves Interpretation.rational (w'.arena s.arena) state)) ∧
      ∀ state, s.system.Solves Interpretation.rational (w'.arena s.arena) state →
        ∃ unknown, Interpretation.rational.IsJet s.system.registry unknown state := by
  obtain ⟨s, w', run, climbs, -⟩ := (reduce_climb climb_isClimb Workspace.wellFormed_default).exists_ok
  have one : Interpretation.rational.number (.int 1) = 1 := by
    have value : (Number.int 1).rational = 1 := rationalOfFloat_one (by decide +kernel)
    show rationalC (Number.int 1).rational = 1
    rw [value, map_one]
  have stand : climb.rhs.Stand Interpretation.rational fun _ => 1 := by
    intro e
    exact Operand.Side.number (fun _ _ => nofun) one.symm
  exact ⟨s, w', run, climbs.regular, reduce_preserves Interpretation.faithful_rational climb_lawful
    stand Workspace.wellFormed_default run⟩

end FirstOrder

end JetForm
