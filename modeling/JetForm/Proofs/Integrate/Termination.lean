import Mathlib.Algebra.Order.Archimedean.Basic
import Mathlib.Data.Rat.Floor
import Mathlib.Logic.Function.Iterate
import JetForm.Integrate.Tableau
import JetForm.Proofs.Integrate.Steps

/-! # Which runs end

    A run is a loop: as long as its time is before the stop it makes a `pass`.
    The budget only counts the passes, so there is one that suffices if and only
    if some number of passes leads to the stop.

    With a positive step size this is always so.  Any other size makes the
    length of every step zero, so a run that has not ended at once stays where
    it is. -/

namespace JetForm

namespace Steps

variable {K σ : Type} [Field K] [LinearOrder K] {advance : Stepper K σ} {size stop : K}

/-! ## Passes -/

/-- One pass of the loop, from a time and a state to the next ones. -/
def pass (advance : Stepper K σ) (size stop : K) (s : K × σ) : K × σ :=
  (s.1 + stepSize size s.1 stop, advance s.1 s.2 (stepSize size s.1 stop))

/-- The state after `k` passes is the first one at or behind the stop. -/
def EndsAfter (advance : Stepper K σ) (size stop : K) (s : K × σ) (k : Nat) (last : K × σ) : Prop :=
  (pass advance size stop)^[k] s = last ∧ stop ≤ last.1 ∧
    ∀ j < k, ((pass advance size stop)^[j] s).1 < stop

theorem endsAfter_of_le {s last : K × σ} (le : stop ≤ s.1) {k : Nat} :
    EndsAfter advance size stop s k last ↔ k = 0 ∧ s = last := by
  constructor
  · rintro ⟨ends, -, before⟩
    cases k with
    | zero => exact ⟨rfl, ends⟩
    | succ k => exact absurd (before 0 k.succ_pos) le.not_gt
  · rintro ⟨rfl, rfl⟩
    exact ⟨rfl, le, by simp⟩

theorem endsAfter_of_lt {s last : K × σ} (lt : s.1 < stop) {k : Nat} :
    EndsAfter advance size stop s k last ↔
      ∃ j, k = j + 1 ∧ EndsAfter advance size stop (pass advance size stop s) j last := by
  constructor
  · rintro ⟨ends, le, before⟩
    cases k with
    | zero =>
      obtain rfl : s = last := ends
      exact absurd lt le.not_gt
    | succ k => exact ⟨k, rfl, ends, le, fun j hj => before (j + 1) (Nat.succ_lt_succ hj)⟩
  · rintro ⟨k, rfl, ends, le, before⟩
    refine ⟨ends, le, fun j hj => ?_⟩
    cases j with
    | zero => exact lt
    | succ j => exact before j (Nat.lt_of_succ_lt_succ hj)

/-- A run is the loop: it gives the state in which the loop ends, if the budget allows for the
    passes. -/
theorem run_eq_some_iff {budget : Nat} {t : K} {y : σ} {last : K × σ} :
    run advance size stop budget t y = some last ↔
      ∃ k ≤ budget, EndsAfter advance size stop (t, y) k last := by
  induction budget generalizing t y with
  | zero =>
    rcases le_or_gt stop t with le | lt
    · simp [run_of_le le, endsAfter_of_le (s := (t, y)) le]
    · have none : run advance size stop 0 t y = none := by
        rw [run, if_pos lt]
      simp [none, endsAfter_of_lt (s := (t, y)) lt]
  | succ budget ih =>
    rcases le_or_gt stop t with le | lt
    · simp [run_of_le le, endsAfter_of_le (s := (t, y)) le]
    · rw [run_of_lt lt, ih]
      simp only [endsAfter_of_lt (s := (t, y)) lt]
      constructor
      · rintro ⟨k, hk, ends⟩
        exact ⟨k + 1, Nat.succ_le_succ hk, k, rfl, ends⟩
      · rintro ⟨_, hk, k, rfl, ends⟩
        exact ⟨k, Nat.le_of_succ_le_succ hk, ends⟩

/-! ## Step sizes -/

/-- Without a positive step size the steps have no length. -/
theorem stepSize_of_nonpos (hsize : size ≤ 0) (t : K) : stepSize size t stop = 0 := by
  have small : smaller (stop - t) size ≤ 0 := by
    rw [smaller]
    split
    next le => exact le.trans hsize
    next => exact hsize
  rw [stepSize, larger, if_pos small]

/-- So the time stands still. -/
theorem time_pass_of_nonpos (hsize : size ≤ 0) (s : K × σ) (k : Nat) :
    ((pass advance size stop)^[k] s).1 = s.1 := by
  induction k with
  | zero => rfl
  | succ k ih => rw [Function.iterate_succ_apply', pass, ih, stepSize_of_nonpos hsize, add_zero]

variable [IsStrictOrderedRing K]

/-- **Which runs end.**  The loop reaches its stop after finitely many passes if and only if it is
    there already or the step size is positive; and that is when a run gives a result with some
    budget.  Otherwise the time never moves. -/
theorem run_ends_iff [Archimedean K] (advance : Stepper K σ) (size start stop : K) (y : σ) :
    ((∃ k, stop ≤ ((pass advance size stop)^[k] (start, y)).1) ↔ stop ≤ start ∨ 0 < size) ∧
    ((∃ budget last, run advance size stop budget start y = some last) ↔
      stop ≤ start ∨ 0 < size) ∧
    (¬(stop ≤ start ∨ 0 < size) →
      ∀ k, ((pass advance size stop)^[k] (start, y)).1 = start) := by
  have stands : ¬(stop ≤ start ∨ 0 < size) →
      ∀ k, ((pass advance size stop)^[k] (start, y)).1 = start := fun neither k =>
    time_pass_of_nonpos (not_lt.mp (not_or.mp neither).2) (start, y) k
  -- a stop that is reached is in one of the cases, these have a result, and a result is reached
  have reaches : (∃ k, stop ≤ ((pass advance size stop)^[k] (start, y)).1) →
      stop ≤ start ∨ 0 < size := by
    rintro ⟨k, le⟩
    by_contra neither
    rw [stands neither] at le
    exact neither (.inl le)
  have ends : stop ≤ start ∨ 0 < size →
      ∃ budget last, run advance size stop budget start y = some last := by
    intro either
    rcases le_or_gt stop start with le | lt
    · exact ⟨0, _, run_of_le le⟩
    · have hsize : 0 < size := either.resolve_left lt.not_ge
      -- so many full steps are no shorter than the rest
      obtain ⟨budget, enough⟩ := Archimedean.arch (stop - start) hsize
      rw [nsmul_eq_mul] at enough
      obtain ⟨z, run⟩ := run_reaches advance hsize enough lt.le y
      exact ⟨budget, _, run⟩
  have loops : (∃ budget last, run advance size stop budget start y = some last) →
      ∃ k, stop ≤ ((pass advance size stop)^[k] (start, y)).1 := by
    rintro ⟨budget, last, run⟩
    obtain ⟨k, -, rfl, le, -⟩ := run_eq_some_iff.mp run
    exact ⟨k, le⟩
  exact ⟨⟨reaches, loops ∘ ends⟩, ⟨reaches ∘ loops, ends⟩, stands⟩

/-- Forward Euler for `u' = u` on the unit interval, with a step size and with its negative. -/
theorem run_ends_iff_growth :
    (∃ budget last, run ((.euler : Tableau ℚ).step fun _ y => y) (1 / 3) 1 budget 0 (1 : ℚ) =
      some last) ∧
    ∀ k, ((pass ((.euler : Tableau ℚ).step fun _ y => y) (-1 / 3) 1)^[k] (0, (1 : ℚ))).1 = 0 :=
  ⟨(run_ends_iff _ (1 / 3) 0 1 1).2.1.mpr (.inr (by norm_num)),
    (run_ends_iff _ (-1 / 3) 0 1 1).2.2 (by norm_num)⟩

/-- Forward Euler for `u' = 0 u` on the unit interval with the step size zero. -/
theorem run_never_ends :
    (∀ k, ((pass ((.euler : Tableau ℚ).step fun _ y => 0 * y) 0 1)^[k] (0, (0 : ℚ))).1 < 1) ∧
    ∀ budget, run ((.euler : Tableau ℚ).step fun _ y => 0 * y) 0 1 budget 0 (0 : ℚ) = none := by
  have before : ∀ k, ((pass ((.euler : Tableau ℚ).step fun _ y => 0 * y) 0 1)^[k]
      (0, (0 : ℚ))).1 < 1 := by
    intro k
    rw [time_pass_of_nonpos le_rfl]
    exact zero_lt_one
  refine ⟨before, fun budget => Option.eq_none_iff_forall_ne_some.mpr fun last run => ?_⟩
  obtain ⟨k, -, rfl, le, -⟩ := run_eq_some_iff.mp run
  exact (before k).not_ge le

end Steps

end JetForm
