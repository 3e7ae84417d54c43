import JetForm.Proofs.Reduction.Solvable

/-! # The equations of the first-order form can be lowered

    Splitting equations in normal form gives lowered equations, one for each
    state entry, and leading coefficients that read no state.  It may refuse the
    equations, but it never looks up a missing slot, and it makes no program that
    turns out not to be one.

    An expression on the right of an equation need not be lowered.  What is asked
    of the result is therefore a parameter, a `Demand`: without such expressions
    all that has been said above, and otherwise nothing but that the arena stays
    well formed. -/

namespace JetForm

/-- A right-hand side that is no expression. -/
def RightHandSide.IsUntraced : RightHandSide → Prop
  | .tree .. => False
  | _ => True

/-- An expression on the right is stored, in the arena or in its own one. -/
def RightHandSide.Stored (a : Arena) : RightHandSide → Prop
  | .tree none h => h < a.count
  | .tree (some source) h => source.WellFormed ∧ h < source.count
  | _ => True

theorem RightHandSide.Stored.grow {a b : Arena} {s : RightHandSide} (stored : s.Stored a)
    (grown : a.Extends b) : s.Stored b := by
  cases s with
  | tree source h =>
    cases source with
    | none => exact grown.lt_count stored
    | some source => exact stored
  | zero | value | unsupported => trivial

/-! ## Leading coefficients -/

namespace LeadingCoefficient

theorem constantValue_early (a : Arena) (h : Nat) :
    Ended (constantValue a h) (fun _ => True) fun e => e.isLate = false := by
  rw [constantValue]
  split
  next v _ =>
    cases a.value v with
    | external f => exact trivial
    | number n =>
      dsimp only
      cases n.toDouble with
      | ok x => exact trivial
      | error f => exact rfl
  next => exact trivial

/-- The function of a coefficient without unknowns reads no state. -/
theorem create_stateless {a : Arena} {h : Nat} (inside : h < a.count)
    (low : (a.expression h).lowered 0 = true) (var order : Nat) :
    Ended (create a var order h) (fun c => c.function.program.Stateless)
      fun e => e.isLate = false := by
  have roots : ∀ g ∈ [h], g < a.count := by simpa using inside
  obtain ⟨p, flattened, outputs, within⟩ := Program.ofTrees_lowered roots
    (show ∀ g ∈ [h], (a.expression g).lowered 0 = true by simpa using low)
  have one : p.outputs.length = 1 := outputs
  rw [create, flattened]
  show Ended (ScalarFunction.create p _ >>= _) _ _
  rw [ScalarFunction.create, dif_pos one]
  show Ended (constantValue a h >>= _) _ _
  apply Ended.bind
  apply (constantValue_early a h).mono ?_ fun _ => id
  exact fun _ _ => within.stateless

theorem Made.stateless {base : Arena} {var order : Nat} {t : Tree} {c : LeadingCoefficient}
    (made : Made base var order t c) (low : t.lowered 0 = true) :
    c.function.program.Stateless := by
  obtain ⟨b, h, -, -, inside, rfl, created⟩ := made
  exact (create_stateless inside low var order).of_ok created

/-- A coefficient is refused where it vanishes, or for a fault. -/
theorem check_early (c : LeadingCoefficient) (d : Domain Float) (tolerance : Float)
    (count : Nat) :
    Ended (c.check d tolerance count) (fun _ => True) fun e => e.isLate = false := by
  unfold check
  cases c.singularity? d tolerance count with
  | error f => exact rfl
  | ok found =>
    show Ended (if _ then _ else _) _ _
    split
    · exact rfl
    · cases found with
      | some s => exact rfl
      | none => exact trivial

end LeadingCoefficient

/-! ## What is asked of the equations -/

/-- A difference is made of its parts. -/
theorem Tree.Composed.remainder {good : Tree → Bool} (composed : Composed good)
    {target rest : Option Tree} (left : ∀ t, target = some t → good t = true)
    (right : ∀ t, rest = some t → good t = true) : good (Tree.remainder target rest) = true := by
  cases target with
  | none =>
    cases rest with
    | none => exact composed.constant _
    | some t => exact composed.unary _ _ (right t rfl)
  | some s =>
    cases rest with
    | none => exact left s rfl
    | some t => exact composed.treeTree _ _ _ (left s rfl) (right t rfl)

/-- The last equation is made of the coefficient, the right-hand side and the rest. -/
theorem Tree.Composed.top {good : Tree → Bool} (composed : Composed good) {coeff : Tree}
    (divisor : good coeff = true) {target rest : Option Tree}
    (left : ∀ t, target = some t → good t = true) (right : ∀ t, rest = some t → good t = true)
    (unit : Bool) : good (Tree.top unit coeff target rest) = true := by
  unfold Tree.top
  split
  · exact composed.remainder left right
  · exact composed.treeTree _ _ _ (composed.remainder left right) divisor

namespace Split

open Extract

variable {a b : Arena}

/-- What is asked of the equations for a registry, and of an error if there are
    none.  It is never more than that the equations are lowered and that the error
    is not late. -/
structure Demand where
  good : Registry → Tree → Bool
  refused : Error → Prop
  composed (r : Registry) : Tree.Composed (good r)
  lowered {r : Registry} {t : Tree} : t.lowered r.slots.size = true → good r t = true
  early {e : Error} : e.isLate = false → refused e

/-- All that can be asked. -/
def Demand.all : Demand where
  good r := Tree.lowered r.slots.size
  refused e := e.isLate = false
  composed _ := Tree.composed_lowered _
  lowered := id
  early := id

/-- Nothing is asked. -/
def Demand.nothing : Demand where
  good _ _ := true
  refused _ := True
  composed _ := ⟨by simp, by simp, by simp, by simp, by simp⟩
  lowered _ := rfl
  early _ := trivial

/-- Wherever it is built, a right-hand side meets the demand. -/
def Demand.MetBy (demand : Demand) (a : Arena) (s : RightHandSide) : Prop :=
  ∀ r : Registry, Supplies a s (fun t => ∀ u, t = some u → demand.good r u = true) demand.refused

/-- What is no expression meets every demand. -/
theorem rightHandSide_untraced (demand : Demand) {s : RightHandSide} (untraced : s.IsUntraced)
    (a : Arena) : demand.MetBy a s := by
  intro r b wf grown
  cases s with
  | zero =>
    apply (provides_zero a b wf grown).mono ?_ fun _ _ => False.elim
    rintro p c ⟨_, rfl, gains⟩
    exact ⟨none, nofun, gains⟩
  | value v =>
    apply (provides_value a v b wf grown).mono ?_ fun _ _ => False.elim
    rintro p c ⟨_, rfl, gains⟩
    refine ⟨some (.constant v.key), ?_, gains⟩
    rintro _ ⟨⟩
    exact (demand.composed r).constant _
  | tree source h => exact untraced.elim
  | unsupported type => exact demand.early rfl

/-- A stored expression is copied, if it comes from elsewhere. -/
theorem rightHandSide_stored {s : RightHandSide} (stored : s.Stored a) :
    Demand.nothing.MetBy a s := by
  cases s with
  | zero | value | unsupported =>
    apply rightHandSide_untraced
    trivial
  | tree source h =>
    intro r b wf grown
    -- the unknowns in it are looked for once the tree is in the arena
    have checked : ∀ (g : Nat) (c : Arena) (t : Tree), Gains b (some t) (some g) c →
        Ends (do
          if ((← get).info g).mask ≠ 0 then throw .rhsDependsOnUnknowns
          return some g : Building (Option Nat)) c
          (fun p c => ∃ t, (∀ u, t = some u → Demand.nothing.good r u = true) ∧ Gains b t p c)
          fun _ _ => True := by
      intro g c t gains
      apply Ends.bind
      apply Ends.get
      split
      · trivial
      · exact Ends.pure ⟨some t, fun _ _ => rfl, gains⟩
    cases source with
    | none =>
      have inside := grown.lt_count stored
      exact checked h b _ (gains_of_makes (Arena.makes_stored wf inside))
    | some source =>
      apply Ends.bind
      apply (Arena.adopt_exact stored.1 wf stored.2).mono ?_ fun _ _ _ => trivial
      exact fun g c made => checked g c _ (gains_of_makes made)

/-! ## The equations of an unknown -/

variable {base : Arena} {r : Registry} {d : Domain Float} {options : ReductionOptions} {var : Nat}
  {n : Int} {t : Tree}

/-- State entries are lowered. -/
theorem lowered_of_mem_chain (known : r.orders[var]? = some n)
    (mem : t ∈ Tree.chain r var n.toNat) : t.lowered r.slots.size = true := by
  obtain ⟨j, hj, rfl⟩ := List.mem_map.mp mem
  have below : j + 1 < n.toNat := by
    have := List.mem_range.mp hj
    omega
  have inside := (List.getElem?_eq_some_iff.mp (Registry.keys_slots known below)).1
  have inside : r.start var + (j + 1) < r.slots.size := inside
  simp [Tree.lowered]
  omega

/-- What is put into the rest of a normal tree is lowered. -/
theorem lowered_substituteRest {s rest : Option Tree}
    (normal : ∀ u, s = some u → u.isNormal = true)
    (substituted : Tree.substituteRest r s = some rest) :
    ∀ u, rest = some u → u.lowered r.slots.size = true := by
  cases s with
  | none =>
    cases substituted
    nofun
  | some s =>
    obtain ⟨u, found, rfl⟩ := Option.map_eq_some_iff.mp substituted
    rintro _ ⟨⟩
    exact Tree.lowered_substitute found (normal s rfl)

/-- The equations meet the demand that the right-hand side meets. -/
theorem Solved.good (demand : Demand) (known : r.orders[var]? = some n)
    (normal : t.isNormal = true) {x : Tree × Option Tree} {target rest : Option Tree}
    (solvable : Solvable base r d options var n.toNat t x rest)
    {q : List Nat × LeadingCoefficient} (solved : Solved base r var n.toNat x.1 target rest q b)
    (side : ∀ u, target = some u → demand.good r u = true) :
    ∀ h ∈ q.1, demand.good r (b.expression h) = true := by
  intro h hh
  have listed := List.mem_map_of_mem (f := b.expression) hh
  rw [solved.equations] at listed
  rcases List.mem_append.mp listed with entry | last
  · exact demand.lowered (lowered_of_mem_chain known entry)
  · rw [List.mem_singleton.mp last]
    -- a coefficient reads no state, so it may stand among the equations
    have low : x.1.lowered r.slots.size = true :=
      Tree.lowered_mono (Nat.zero_le _) (Tree.lowered_of_lead normal solvable.lead)
    have normal := (Tree.hereditary_isNormal.lead normal solvable.lead).2
    exact (demand.composed r).top (demand.lowered low) side
      (fun u eq => demand.lowered (lowered_substituteRest normal solvable.substituted u eq)) _

/-- A normal tree is refused as the demand allows. -/
theorem Unsolved.refused (demand : Demand) {order : Nat} (normal : t.isNormal = true)
    (covers : r.Covers base.size) {e : Error}
    (unsolved : Unsolved base r d options var order t demand.refused e) : demand.refused e := by
  cases unsolved with
  | lead none early => exact demand.early early
  | create lead wf grown inside coeff failed =>
    have low := Tree.lowered_of_lead normal lead
    exact demand.early ((LeadingCoefficient.create_stateless inside (coeff ▸ low) var order).of_error
      failed)
  | check lead made failed =>
    exact demand.early ((LeadingCoefficient.check_early _ _ _ _).of_error failed)
  | rest lead unfit => exact demand.early (unfit.early covers)
  | side refused => exact refused

end Split

/-! ## The system -/

/-- The equations of a system are lowered, one for each slot, and its leading
    coefficients read no state. -/
structure SplitSystem.Lowered (s : SplitSystem) (a : Arena) : Prop where
  slots : s.slots = s.registry.slots
  length : s.equations.length = s.slots.size
  equations : ∀ h ∈ s.equations, h < a.count ∧ (a.expression h).lowered s.slots.size = true
  coefficients : ∀ c ∈ s.coefficients, c.handle < a.count ∧
    (a.expression c.handle).lowered 0 = true ∧ c.function.program.Stateless

/-- The equations of a system are good, one for each slot, and its leading
    coefficients read no state. -/
structure SplitSystem.Consists (good : Tree → Bool) (s : SplitSystem) (a : Arena) : Prop where
  slots : s.slots = s.registry.slots
  length : s.equations.length = s.slots.size
  equations : ∀ h ∈ s.equations, h < a.count ∧ good (a.expression h) = true
  coefficients : ∀ c ∈ s.coefficients, c.handle < a.count ∧
    (a.expression c.handle).lowered 0 = true ∧ c.function.program.Stateless

/-- A system meets the greatest demand if it is lowered. -/
theorem SplitSystem.Consists.lowered {s : SplitSystem} {a : Arena}
    (consists : s.Consists (Split.Demand.all.good s.registry) a) : s.Lowered a where
  slots := consists.slots
  length := consists.length
  equations h hh := by
    rw [consists.slots]
    exact consists.equations h hh
  coefficients := consists.coefficients

/-- An unknown of order zero would have been refused by the assignment. -/
theorem Arena.Assigned.covers {a : Arena} {roots : List Nat} {r : Registry} {assignment : List Nat}
    (assigned : a.Assigned roots r assignment) (size : r.size = a.size) : r.Covers a.size := by
  intro var inside
  rw [← size] at inside
  have known : r.orders[var]? = some r.orders[var] := List.getElem?_eq_getElem inside
  exact ⟨_, known, assigned.positive _ (List.mem_of_getElem? known)⟩

/-- Splitting equations in normal form meets the demand that the right-hand sides
    meet. -/
theorem Arena.split_consists (demand : Split.Demand) {a : Arena} (wf : a.WellFormed)
    {roots : List Nat} (normal : ∀ root ∈ roots, (a.expression root).isNormal = true)
    {rhs : List RightHandSide} (met : ∀ s ∈ rhs, demand.MetBy a s) {r : Registry}
    (size : r.size = a.size) (domain : Domain Float) (options : ReductionOptions) :
    Ends (Arena.split roots r domain (some rhs) options) a
      (fun s b => s.registry = r ∧ r.Covers a.size ∧ b.WellFormed ∧ a.Extends b ∧
        s.Consists (demand.good r) b)
      fun e _ => demand.refused e := by
  apply (Arena.split_ends (Arena.Extends.refl a) wf
    (fun e s given => met s (List.mem_of_getElem? given) r) r domain options).mono
  · rintro s b ⟨-, rfl, slots, found, wf', grown, parts, equations, coefficients, derived⟩
    have assigned : a.Assigned roots s.registry s.assignment := assignEquations_ended.of_ok found
    -- what each unknown contributes
    have block : List.Forall₂ (fun entry part => part.1.length = entry.1.toNat ∧
        (∀ h ∈ part.1, h < b.count ∧ demand.good s.registry (b.expression h) = true) ∧
        part.2.handle < b.count ∧ (b.expression part.2.handle).lowered 0 = true ∧
        part.2.function.program.Stateless) s.registry.orders.zipIdx parts := by
      have known : ∀ entry ∈ s.registry.orders.zipIdx,
          s.registry.orders[entry.2]? = some entry.1 := fun entry =>
        List.mk_mem_zipIdx_iff_getElem?.mp
      apply ((List.forall₂_and_left _ _).mpr ⟨known, derived⟩).imp
      rintro ⟨n, var⟩ q ⟨known, e, t, target, x, rest, given, tree, side, solvable, solved⟩
      rw [List.getElem?_map] at tree
      obtain ⟨root, equation, rfl⟩ := Option.map_eq_some_iff.mp tree
      have normal := normal root (List.mem_of_getElem? equation)
      have low := Tree.lowered_of_lead normal solvable.lead
      obtain ⟨inside, coeff⟩ := solved.coefficient
      have positive := assigned.positive n (List.mem_of_getElem? known)
      exact ⟨solved.length (by omega),
        fun h hh => ⟨solved.inside h hh, solved.good demand known normal solvable side h hh⟩,
        inside, coeff ▸ low, solved.made.stateless low⟩
    refine ⟨rfl, assigned.covers size, wf', grown, slots, ?_, ?_, ?_⟩
    · rw [equations, slots]
      apply Registry.Blocks.length_flatten
      apply Registry.blocks_of_forall₂
      exact block.imp fun _ _ known => known.1
    · intro h hh
      rw [equations] at hh
      obtain ⟨hs, listed, hh⟩ := List.mem_flatten.mp hh
      obtain ⟨q, hq, rfl⟩ := List.mem_map.mp listed
      obtain ⟨entry, -, -, known, -⟩ := exists_mem_of_forall₂_right block hq
      exact known h hh
    · intro c hc
      rw [coefficients] at hc
      obtain ⟨q, hq, rfl⟩ := List.mem_map.mp hc
      obtain ⟨entry, -, -, -, known⟩ := exists_mem_of_forall₂_right block hq
      exact known
  · intro e _ unsplit
    cases unsplit with
    | miscounted _ same => exact demand.early (same ▸ rfl)
    | unassigned failed => exact demand.early (assignEquations_ended.of_error failed)
    | @unsolved assignment _ _ root _ found _ _ equation unsolved =>
      have assigned : a.Assigned roots r assignment := assignEquations_ended.of_ok found
      exact unsolved.refused demand (normal root (List.mem_of_getElem? equation))
        (assigned.covers size)

end JetForm
