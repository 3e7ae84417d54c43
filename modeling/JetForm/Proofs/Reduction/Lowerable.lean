import JetForm.Proofs.Reduction.Equations
import JetForm.Proofs.Reduction.FirstOrder
import JetForm.Proofs.Reduction.Residual

/-! # What has been accepted can be lowered

    Each error of a later stage is excluded by a check of an earlier one: the
    normal form leaves derivatives on unknowns only, the assignment refuses
    unknowns without an order, extraction keeps unknowns out of coefficients, and
    the terms of a condition stay below the orders.  So once the equations have
    been split they are a vector field, and once the conditions have been sorted
    they are a residual. -/

namespace JetForm

/-- No right-hand side is an expression. -/
def RightHandSides.Untraced : RightHandSides → Prop
  | .common v => ∀ e, v ≠ .traced e
  | .each vs => ∀ v ∈ vs, ∀ e, v ≠ .traced e

theorem RightHandSides.Untraced.stored {rhs : RightHandSides} (untraced : rhs.Untraced)
    (w : Workspace) : rhs.Stored w := by
  cases rhs with
  | common v => exact fun e same => absurd same (untraced e)
  | each vs => exact fun v hv e same => absurd same (untraced v hv e)

/-! ## The normal form -/

/-- Recorded trees have normal forms that are ready for the later stages. -/
theorem Arena.normalize_ready {a : Arena} (wf : a.WellFormed) {hs : List Nat}
    (stored : ∀ h ∈ hs, h < a.count ∧ (a.expression h).recorded = true) :
    Ends (Arena.normalize hs) a
      (fun roots b => b.WellFormed ∧ a.Extends b ∧ ∀ root ∈ roots,
        root < b.count ∧ (b.expression root).isNormal = true ∧ b.Repeatable root)
      fun e _ => e.isLate = false := by
  have inside : ∀ h ∈ hs, h < a.count := fun h hh => (stored h hh).1
  apply (Arena.normalize_ends wf inside).mono
  · rintro roots b ⟨wf', grown, normal⟩
    refine ⟨wf', grown, ?_⟩
    intro root hr
    obtain ⟨h, given, normalizes⟩ := exists_mem_of_forall₂_right normal hr
    have recorded := (stored h given).2
    exact ⟨normalizes.inside, Tree.isNormal_normalForm normalizes.normalForm recorded,
      normalizes.repeatable wf'⟩
  · rintro _ _ ⟨r, -, stuck⟩
    exact stuck.early

namespace FirstOrder

/-! ## Splitting -/

/-- A right-hand side is read without a failure. -/
theorem rightHandSide_ends {w : Workspace} (wf : w.WellFormed) (i : Nat) {v : Operand}
    (stored : ∀ e, v = .traced e → e.Stored w) :
    Ends (rightHandSide i v) w (fun s w' => w.Grows w' ∧ s.Stored (w.arena i) ∧
      ((∀ e, v ≠ .traced e) → s.IsUntraced)) fun _ _ => False := by
  have number : ∀ n : Number,
      (if n.isZero then RightHandSide.zero else .value (.number n)).Stored (w.arena i) ∧
      ((∀ e, v ≠ .traced e) →
        (if n.isZero then RightHandSide.zero else .value (.number n)).IsUntraced) := by
    intro n
    split <;> exact ⟨trivial, fun _ => trivial⟩
  have kept := Workspace.Grows.refl wf
  -- a literal takes a serial number, and leaves the arenas alone
  have literal : ∀ x : Float, Ends (do
        let n ← Workspace.literal x
        return if n.isZero then RightHandSide.zero else .value (.number n)) w
      (fun s w' => w.Grows w' ∧ s.Stored (w.arena i) ∧ ((∀ e, v ≠ .traced e) → s.IsUntraced))
      fun _ _ => False := by
    intro x
    unfold Workspace.literal
    split
    · exact ⟨⟨wf, wf, Nat.le_refl _, fun i _ => Arena.Extends.refl (w.arena i)⟩, number _⟩
    · exact ⟨kept, number _⟩
  cases v with
  | nothing | external | text | sequence => exact Ends.pure ⟨kept, trivial, fun _ => trivial⟩
  | number n =>
    cases n with
    | wide x origin => exact literal x.toFloat
    | bool | int | double | complex => exact Ends.pure ⟨kept, number _⟩
  | array x =>
    obtain ⟨⟨_ | ⟨n, shape⟩, entries⟩, place⟩ := x
    · exact literal _
    · exact Ends.pure ⟨kept, trivial, fun _ => trivial⟩
  | traced e =>
    have known := stored e rfl
    refine Ends.bind (Ends.get (Ends.pure ⟨kept, ?_, fun untraced => absurd rfl (untraced e)⟩))
    split
    next same => exact same ▸ known.inside
    next => exact ⟨wf e.arena, known.inside⟩

/-- Right-hand sides are read without a failure. -/
theorem rightHandSides_ends {w : Workspace} (wf : w.WellFormed) {i : Nat}
    (inside : i < w.arenas.size) (count : Nat) {rhs : RightHandSides} (stored : rhs.Stored w) :
    Ends (rightHandSides i count rhs) w
      (fun sides w' => w.Grows w' ∧ (∀ s ∈ sides, s.Stored (w'.arena i)) ∧
        (rhs.Untraced → ∀ s ∈ sides, s.IsUntraced)) fun _ _ => False := by
  -- one operand an equation; the common operand is the same list with every entry equal
  have each : ∀ vs : List Operand, (∀ v ∈ vs, ∀ e, v = .traced e → e.Stored w) →
      Ends (vs.mapM (rightHandSide i)) w
        (fun sides w' => w.Grows w' ∧ (∀ s ∈ sides, s.Stored (w'.arena i)) ∧
          ((∀ v ∈ vs, ∀ e, v ≠ .traced e) → ∀ s ∈ sides, s.IsUntraced)) fun _ _ => False := by
    intro vs stored
    apply Ends.mapM
      (fun before (sides : List RightHandSide) w' => w.Grows w' ∧
        (∀ s ∈ sides, s.Stored (w'.arena i)) ∧
        ((∀ v ∈ before, ∀ e : Traced, v ≠ Operand.traced e) → ∀ s ∈ sides, s.IsUntraced))
      ⟨Workspace.Grows.refl wf, by simp, by simp⟩
    rintro before v after sides w' eq ⟨grown, known, untraced⟩
    have last : ∀ e, v = .traced e → e.Stored w' := fun e same =>
      (stored v (by simp [eq]) e same).grow grown
    apply (rightHandSide_ends grown.after i last).weaken
    rintro s w'' ⟨grown', storedLast, untracedLast⟩
    have later := grown'.arena i (Nat.lt_of_lt_of_le inside grown.size)
    refine ⟨grown.trans grown', ?_, ?_⟩
    · intro t ht
      rcases List.mem_append.mp ht with ht | ht
      · exact (known t ht).grow later
      · exact List.mem_singleton.mp ht ▸ storedLast.grow later
    · intro numbers t ht
      rcases List.mem_append.mp ht with ht | ht
      · exact untraced (fun v hv => numbers v (List.mem_append_left _ hv)) t ht
      · exact List.mem_singleton.mp ht ▸ untracedLast (numbers v (by simp))
  cases rhs with
  | each vs => exact each vs stored
  | common v =>
    have stored' : ∀ v' ∈ List.replicate count v, ∀ e, v' = .traced e → e.Stored w :=
      fun v' hv => List.eq_of_mem_replicate hv ▸ stored
    apply (each _ stored').weaken
    rintro sides w' ⟨grown, known, untraced⟩
    refine ⟨grown, known, fun number => untraced fun v' hv => ?_⟩
    exact List.eq_of_mem_replicate hv ▸ number

theorem checkOrders_early (declared : Option (List Number)) (traced : List Nat) :
    Ended (checkOrders declared traced) (fun _ => True) fun e => e.isLate = false := by
  cases declared with
  | none => exact trivial
  | some declared =>
    have whole : ∀ n ∈ declared, Ended (wholeNumber n) (fun _ => True)
        fun e => e.isLate = false := by
      intro n _
      rw [wholeNumber]
      split
      next => exact trivial
      next =>
        split
        next => exact trivial
        next =>
          show (if _ then Error.undefinedInteger else .infiniteInteger).isLate = false
          split <;> rfl
    apply Ended.bind
    apply (Ended.mapM whole).mono ?_ fun _ => id
    intro orders _
    split
    · exact rfl
    · exact trivial

/-- Equations are not staged for a reason that is not late. -/
theorem Unstaged.early {declared : Option (List Number)} {w : Workspace} {p : TracedProblem}
    {e : Error} (unstaged : Unstaged declared w p e) : e.isLate = false := by
  cases unstaged with
  | stuck _ stuck => exact stuck.early
  | orders _ failed => exact (checkOrders_early _ _).of_error failed
  | registry _ failed => exact (Registry.create_orders _ _).of_error failed

/-- The equations of a problem are split as demanded, if the right-hand sides meet
    the demand. -/
theorem splitEquations_consists (demand : Split.Demand) {w : Workspace} (wf : w.WellFormed)
    {p : TracedProblem} (stored : p.Stored w) (domain : Domain Float) {posed : Posed}
    (rhs : posed.rhs.Stored w)
    (met : ∀ (a : Arena) (s : RightHandSide), s.Stored a → (posed.rhs.Untraced → s.IsUntraced) →
      demand.MetBy a s) :
    Ends (splitEquations p domain posed) w
      (fun s w' => w.Grows w' ∧ s.registry.size = (w'.arena p.arena).size ∧
        s.registry.Covers (w'.arena p.arena).size ∧
        s.Consists (demand.good s.registry) (w'.arena p.arena))
      fun e _ => demand.refused e := by
  apply splitEquations_passes wf stored domain (fun sides a => ∀ s ∈ sides, demand.MetBy a s)
    (fun s b => s.registry.size = b.size ∧ s.registry.Covers b.size ∧
      s.Consists (demand.good s.registry) b)
    fun e unstaged => demand.early unstaged.early
  · intro w' grown
    have inside : p.arena < w'.arenas.size := Nat.lt_of_lt_of_le stored.arena grown.size
    apply (rightHandSides_ends grown.after inside _ (rhs.grow grown)).mono ?_ fun _ _ => False.elim
    rintro sides w'' ⟨grown', stored', untraced⟩
    exact ⟨grown', fun s hs => met _ s (stored' s hs) fun plain => untraced plain s hs⟩
  · intro roots r a sides staged met
    apply (Arena.split_consists demand staged.wellFormed (staged.isNormal stored) met staged.size
      domain posed.options).weaken
    rintro s b ⟨rfl, covers, wf', grown, consists⟩
    exact ⟨⟨wf', grown⟩, staged.size.trans grown.size.symm, grown.size ▸ covers, consists⟩

/-- The equations of a problem are split without a late error. -/
theorem splitEquations_lowered {w : Workspace} (wf : w.WellFormed) {p : TracedProblem}
    (stored : p.Stored w) (domain : Domain Float) {posed : Posed}
    (untraced : posed.rhs.Untraced) :
    Ends (splitEquations p domain posed) w
      (fun s w' => w.Grows w' ∧ s.registry.Covers (w'.arena p.arena).size ∧
        s.Lowered (w'.arena p.arena))
      fun e _ => e.isLate = false := by
  apply (splitEquations_consists .all wf stored domain (untraced.stored w) ?_).weaken
  · exact fun s w' known => ⟨known.1, known.2.2.1, known.2.2.2.lowered⟩
  · exact fun a s _ plain => Split.rightHandSide_untraced _ (plain untraced) a

/-- Whatever stands on the right, splitting only adds to the arenas. -/
theorem splitEquations_grows {w : Workspace} {p : TracedProblem} (stored : p.Stored w)
    (domain : Domain Float) {posed : Posed} (rhs : posed.rhs.Stored w) :
    Runs (splitEquations p domain posed) w fun w' s => s.slots = s.registry.slots ∧
      s.registry.size = (w'.arena p.arena).size := by
  intro wf
  apply (splitEquations_consists .nothing wf stored domain rhs ?_).mono
  · exact fun s w' known => ⟨known.1, known.2.2.2.slots, known.2.1⟩
  · exact fun _ _ => id
  · exact fun a s stored _ => Split.rightHandSide_stored stored

/-! ## Conditions -/

/-- Sorting conditions in normal form never looks up a missing slot, and the
    sorted conditions make a residual. -/
theorem sort_residual {a : Arena} (wf : a.WellFormed) {r : Registry} (covers : r.Covers a.size)
    {roots : List Nat} (ready : ∀ root ∈ roots,
      root < a.count ∧ (a.expression root).isNormal = true ∧ a.Repeatable root)
    (location : Float) (endpoint : Endpoint) :
    Ended (Conditions.sort a roots r r.slots location endpoint)
      (fun sorted => Ends (InitialState.residualField sorted r r.slots) a
        (fun g _ => g.size = r.slots.size) fun _ _ => False)
      fun e => e.isLate = false := by
  apply Ended.intro
  · exact fun sorted run => InitialState.residualField_of_sort wf ready run
  · intro e failed
    exact (Conditions.sort_early wf covers roots location endpoint).of_error failed

/-! ## All stages -/

/-- A system that can be lowered: its equations are a vector field on the state,
    and its leading coefficients are functions that need no state. -/
structure Lowerable (s : SplitSystem) (a : Arena) : Prop where
  lowered : s.Lowered a
  field : ∃ f, fieldOf a s.equations = .ok f ∧ f.size = s.slots.size
  coefficients : ∀ c ∈ s.coefficients, ∀ t x,
    c.function.entries t none = c.function.entries t (some x)

theorem lowerable_of_lowered {s : SplitSystem} {a : Arena} (lowered : s.Lowered a) :
    Lowerable s a := by
  refine ⟨lowered, ?_, ?_⟩
  · have components := lowered.equations
    rw [← lowered.length] at components ⊢
    exact VectorField.exists_of_lowered rfl (fun h hh => (components h hh).1)
      fun h hh => (components h hh).2
  · intro c hc t x
    exact ScalarFunction.entries_stateless (lowered.coefficients c hc).2.2 t x

/-- **What has been accepted can be lowered.**  Splitting the equations of a
    problem without expressions on the right ends with a system that can be
    lowered, or with an error that is not late.  Sorting any conditions ends in
    the same way with conditions whose residual can be made. -/
theorem splitEquations_lowerable {posed : Posed} (lawful : posed.Lawful)
    (untraced : posed.rhs.Untraced) {w w₁ w₂ : Workspace} (wf : w.WellFormed)
    {p : TracedProblem}
    (traced : trace posed.operators posed.domain posed.orders w = .ok p w₁)
    (grown : w₁.Grows w₂) (domain : Domain Float) :
    Ends (splitEquations p domain posed) w₂
      (fun s w₃ => Lowerable s (w₃.arena p.arena) ∧
        ∀ source : ConditionSource, source.Lawful →
        ∀ trees w₄, conditionTrees p s.slots source w₃ = .ok trees w₄ →
        ∀ domain' w₅, joinDomains domain trees w₄ = .ok domain' w₅ →
        ∀ roots a, Arena.normalize (trees.map Traced.handle) (w₅.arena p.arena) = .ok roots a →
        ∀ location endpoint,
          Ended (Conditions.sort a roots s.registry s.slots location endpoint)
            (fun sorted => Ends (InitialState.residualField sorted s.registry s.slots) a
              (fun g _ => g.size = s.slots.size) fun _ _ => False)
            fun e => e.isLate = false)
      fun e _ => e.isLate = false := by
  have stored := ((trace_runs lawful.operators posed.domain posed.orders).of_ok wf traced).2
  have stored₂ := stored.grow grown
  apply (splitEquations_lowered grown.after stored₂ domain untraced).weaken
  rintro s w₃ ⟨grown₃, covers, lowered⟩
  refine ⟨lowerable_of_lowered lowered, ?_⟩
  intro source lawful trees w₄ listed domain' w₅ joined roots a normalized location endpoint
  have stored₃ := stored₂.grow grown₃
  obtain ⟨grown₄, trees_stored⟩ :=
    (conditionTrees_runs stored₃ s.slots lawful).of_ok grown₃.after listed
  obtain ⟨grown₅, -⟩ := (joinDomains_runs domain trees).of_ok grown₄.after joined
  have conditions : ∀ h ∈ trees.map Traced.handle, h < (w₅.arena p.arena).count ∧
      ((w₅.arena p.arena).expression h).recorded = true := by
    intro h hh
    obtain ⟨e, he, rfl⟩ := List.mem_map.mp hh
    obtain ⟨known, place⟩ := trees_stored e he
    have later := known.grow grown₅
    exact place ▸ ⟨later.inside, later.recorded⟩
  obtain ⟨wf', extended, ready⟩ :=
    (Arena.normalize_ready (grown₅.after p.arena) conditions).of_ok normalized
  have same := ((grown₄.trans grown₅).arena p.arena stored₃.arena).trans extended
  -- the conditions are trees of an arena with as many unknowns
  rw [lowered.slots]
  exact sort_residual wf' (same.size ▸ covers) ready location endpoint

/-- The problem `u' = 1` is split into a system that can be lowered. -/
theorem splitEquations_lowerable_climb : ∃ p w domain s w',
    trace climb.operators climb.domain climb.orders default = .ok p w ∧
    splitEquations p domain climb w = .ok s w' ∧ Lowerable s (w'.arena p.arena) := by
  have untraced : climb.rhs.Untraced := by
    rintro e ⟨⟩
  obtain ⟨p, w, traced, grown, stored, names, e, equations, is, -, -⟩ :=
    (trace_climb climb_isClimb Workspace.wellFormed_default).exists_ok
  obtain ⟨s, w', run, -⟩ :=
    (splitEquations_climb climb_isClimb grown.after stored names equations is e.domain).exists_ok
  have ends := splitEquations_lowerable climb_lawful untraced Workspace.wellFormed_default traced
    (Workspace.Grows.refl grown.after) e.domain
  exact ⟨p, w, e.domain, s, w', traced, run, (ends.of_ok run).1⟩

end FirstOrder

end JetForm
