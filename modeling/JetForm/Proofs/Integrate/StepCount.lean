import Mathlib.Algebra.Order.Floor.Ring
import Mathlib.Data.Rat.Floor
import JetForm.Integrate.Tableau
import JetForm.Proofs.Integrate.Steps

/-! # How many steps a run takes

    The rest of a run, measured in steps, shrinks by one with each step: a full
    step takes away exactly one, and a shorter one is all that was left.  So a
    run takes the rest rounded up to a whole number, and every step but the last
    is a full one. -/

namespace JetForm

namespace Steps

variable {K σ : Type}

/-- Steps of given lengths, one after the other. -/
def walk [Add K] (advance : Stepper K σ) : K → σ → List K → K × σ
  | t, y, [] => (t, y)
  | t, y, h :: later => walk advance (t + h) (advance t y h) later

variable [Field K] [LinearOrder K]

/-- The lengths of the steps that a run takes from a time on. -/
inductive Approach (size stop : K) : K → List K → Prop
  | ends {t : K} (le : stop ≤ t) : Approach size stop t []
  | step {t : K} {lengths : List K} (lt : t < stop)
      (later : Approach size stop (t + stepSize size t stop) lengths) :
      Approach size stop t (stepSize size t stop :: lengths)

variable [IsStrictOrderedRing K] {size stop t : K}

/-! ## The rest of a run -/

section

variable [FloorSemiring K]

theorem rest_of_le (hsize : 0 < size) (h : stop ≤ t) : ⌈(stop - t) / size⌉₊ = 0 :=
  Nat.ceil_eq_zero.mpr (div_nonpos_of_nonpos_of_nonneg (sub_nonpos.mpr h) hsize.le)

/-- Every step takes one off the number of steps that are left. -/
theorem rest_of_lt (hsize : 0 < size) (h : t < stop) :
    ⌈(stop - t) / size⌉₊ = ⌈(stop - (t + stepSize size t stop)) / size⌉₊ + 1 := by
  rcases rest_after_step hsize h with hend | hfull
  · -- The step is all that was left, and not longer than a full one.
    have positive : 0 < (stop - t) / size := div_pos (sub_pos.mpr h) hsize
    have short : (stop - t) / size ≤ 1 := by
      rw [div_le_one hsize, ← hend, add_sub_cancel_left]
      exact stepSize_le hsize h
    rw [rest_of_le hsize hend.ge, Nat.ceil_eq_iff (by simp)]
    simpa using ⟨positive, short⟩
  · have left : 0 ≤ (stop - (t + size)) / size :=
      div_nonneg (sub_nonneg.mpr (hfull ▸ add_stepSize_le hsize h)) hsize.le
    have split : (stop - t) / size = (stop - (t + size)) / size + 1 := by
      field_simp
      ring
    rw [hfull, split, Nat.ceil_add_one left]

/-- The steps that are left lead to the stop. -/
theorem exists_approach (hsize : 0 < size) (stop t : K) : ∃ lengths, Approach size stop t lengths := by
  -- The induction is on the number of steps that are left.
  induction hn : ⌈(stop - t) / size⌉₊ generalizing t with
  | zero =>
    have rest : (stop - t) / size ≤ 0 := Nat.ceil_eq_zero.mp hn
    refine ⟨[], .ends (not_lt.mp fun lt => ?_)⟩
    exact rest.not_gt (div_pos (sub_pos.mpr lt) hsize)
  | succ n ih =>
    have lt : t < stop := by
      by_contra le
      rw [rest_of_le hsize (not_lt.mp le)] at hn
      cases hn
    obtain ⟨lengths, later⟩ := ih _ (Nat.succ.inj ((rest_of_lt hsize lt).symm.trans hn))
    exact ⟨_, .step lt later⟩

end

/-! ## The steps of an approach -/

namespace Approach

variable {lengths : List K}

theorem length_eq [FloorSemiring K] (hsize : 0 < size) (approach : Approach size stop t lengths) :
    lengths.length = ⌈(stop - t) / size⌉₊ := by
  induction approach with
  | ends le => exact (rest_of_le hsize le).symm
  | step lt _ ih => rw [List.length_cons, ih, rest_of_lt hsize lt]

/-- If a step is not the last one, it is a full one. -/
theorem full (hsize : 0 < size) (approach : Approach size stop t lengths) :
    ∀ h ∈ lengths.dropLast, h = size := by
  induction approach with
  | ends => simp
  | step lt later ih =>
    cases later with
    | ends => simp
    | step lt' later =>
      rw [List.dropLast_cons_of_ne_nil (List.cons_ne_nil _ _)]
      exact List.forall_mem_cons.mpr ⟨(rest_after_step hsize lt).resolve_left lt'.ne, ih⟩

theorem last (hsize : 0 < size) (approach : Approach size stop t lengths) :
    ∀ h ∈ lengths.getLast?, 0 < h ∧ h ≤ size := by
  induction approach with
  | ends => simp
  | step lt later ih =>
    cases later with
    | ends => simpa using ⟨stepSize_pos hsize lt, stepSize_le hsize lt⟩
    | step lt' later =>
      rw [List.getLast?_cons_cons]
      exact ih

/-- The walk ends at the stop, unless that has passed. -/
theorem walk_fst (hsize : 0 < size) (approach : Approach size stop t lengths)
    (advance : Stepper K σ) (y : σ) : (walk advance t y lengths).1 = max t stop := by
  induction approach generalizing y with
  | ends le => exact (max_eq_left le).symm
  | step lt later ih => rw [walk, ih, max_eq_right (add_stepSize_le hsize lt), max_eq_right lt.le]

omit [IsStrictOrderedRing K] in
/-- A run takes these steps; with a smaller budget it gives no result. -/
theorem run_eq (approach : Approach size stop t lengths) (advance : Stepper K σ) (y : σ)
    (budget : Nat) :
    run advance size stop budget t y =
      if lengths.length ≤ budget then some (walk advance t y lengths) else none := by
  induction approach generalizing y budget with
  | ends le => exact run_of_le le
  | step lt later ih =>
    cases budget with
    | zero =>
      rw [run, if_pos lt]
      rfl
    | succ budget =>
      rw [run_of_lt lt, ih]
      simp [walk]

end Approach

/-! ## Runs -/

/-- The lengths of the steps of a run: their number is the length of the
    interval in full steps, rounded up, and all but the last are full ones. -/
structure StepLengths [FloorRing K] (size start stop : K) (lengths : List K) : Prop where
  count : (lengths.length : Int) = max 0 ⌈(stop - start) / size⌉
  full : ∀ h ∈ lengths.dropLast, h = size
  last : ∀ h ∈ lengths.getLast?, 0 < h ∧ h ≤ size

/-- **A run ends exactly at its stop.**  It takes as many steps as the interval
    needs, full ones but for the last, which is shortened as necessary.  It
    takes none if the stop has passed. -/
theorem run_walks [FloorRing K] (hsize : 0 < size) (start stop : K) :
    ∃ lengths, StepLengths size start stop lengths ∧
      ∀ {σ : Type} (advance : Stepper K σ) (y : σ),
        (walk advance start y lengths).1 = max start stop ∧
        (stop ≤ start → walk advance start y lengths = (start, y)) ∧
        ∀ budget, run advance size stop budget start y =
          if lengths.length ≤ budget then some (walk advance start y lengths) else none := by
  obtain ⟨lengths, approach⟩ := exists_approach hsize stop start
  have count : (lengths.length : Int) = max 0 ⌈(stop - start) / size⌉ := by
    rw [approach.length_eq hsize, ← Int.ceil_toNat, Int.ofNat_toNat, max_comm]
  refine ⟨lengths, ⟨count, approach.full hsize, approach.last hsize⟩, fun advance y =>
    ⟨approach.walk_fst hsize advance y, fun passed => ?_, approach.run_eq advance y⟩⟩
  cases approach with
  | ends => rfl
  | step lt => exact absurd lt passed.not_gt

/-- Forward Euler on the unit interval, in steps that do not divide it. -/
theorem run_walks_euler :
    0 < (2 / 5 : ℚ) ∧
      (∃ lengths, StepLengths (2 / 5 : ℚ) 0 1 lengths ∧ lengths.length = 3) ∧
      run ((.euler : Tableau ℚ).step fun t y => t + y) (2 / 5) 1 2 0 (1 : ℚ) = none ∧
      run ((.euler : Tableau ℚ).step fun t y => t + y) (2 / 5) 1 3 0 (1 : ℚ) =
        some (1, 338 / 125) := by
  have hsize : 0 < (2 / 5 : ℚ) := by norm_num
  obtain ⟨lengths, steps, walks⟩ := run_walks hsize 0 1
  obtain ⟨-, -, runs⟩ := walks ((.euler : Tableau ℚ).step fun t y => t + y) (1 : ℚ)
  have ceil : ⌈((1 : ℚ) - 0) / (2 / 5)⌉ = 3 := by norm_num
  have count : lengths.length = 3 := by
    have count := steps.count
    rw [ceil] at count
    exact_mod_cast count
  refine ⟨hsize, ⟨lengths, steps, count⟩, ?_, by decide +kernel⟩
  rw [runs, count]
  rfl

end Steps

end JetForm
