import JetForm.Numerics.Newton
import Mathlib.Logic.Function.Iterate
import Mathlib.Order.Bounds.Basic
import Mathlib.Order.Interval.Set.Defs
import Mathlib.Tactic.Common

/-! # Where Newton's method stops

    `iterates` is the plain sequence `y ↦ y + solve (J y) (-R y)`, without a test
    and without anything that is carried along.  A run is one of its elements:
    the first one whose residual is within the tolerance, or the one with the
    number of the allowed iterations if that comes first.

    The loop carries a residual and a counter.  After `k` steps they are the
    residual of element `k` and the number `k`, so the tests of the loop and the
    test after it speak about the sequence: `run_stops`.  Nothing is assumed of
    residual, Jacobian and solver; the norms only have to be comparable. -/

namespace JetForm

namespace Newton

section

variable {V M : Type} [Add V] [Neg V] (solve : M → V → V) (residual : V → V) (jacobian : V → M)
  (guess : V)

/-- Newton's sequence from a guess. -/
def iterates : Nat → V
  | 0 => guess
  | k + 1 =>
    let y := iterates k
    y + solve (jacobian y) (-residual y)

/-- What the loop carries when it has reached element `k` of the sequence. -/
def stateAt (k : Nat) : NewtonState V :=
  ⟨iterates solve residual jacobian guess k, residual (iterates solve residual jacobian guess k), k⟩

/-- One step leads from each element to the next one. -/
theorem step_stateAt (k : Nat) : step solve residual jacobian
    (stateAt solve residual jacobian guess k) = stateAt solve residual jacobian guess (k + 1) :=
  rfl

/-- The residual that is carried is that of the point it is carried with. -/
theorem step_iterate (k : Nat) : (step solve residual jacobian)^[k] ⟨guess, residual guess, 0⟩ =
    stateAt solve residual jacobian guess k := by
  induction k with
  | zero => rfl
  | succ k ih => rw [Function.iterate_succ_apply', ih, step_stateAt]

end

/-- The loop takes some of the steps that it may take: all residuals before the
    last one are too large, and so is the last one unless there are steps left. -/
theorem iterate_stops {V : Type} (unsolved : V → Bool) (next : NewtonState V → NewtonState V)
    (count : Nat) (s : NewtonState V) :
    ∃ k ≤ count, iterate unsolved next count s = next^[k] s ∧
      (∀ j < k, unsolved (next^[j] s).residual = true) ∧
      (k < count → unsolved (next^[k] s).residual = false) := by
  induction count generalizing s with
  | zero => exact ⟨0, le_rfl, rfl, by simp, by simp⟩
  | succ count ih =>
    rw [iterate]
    split
    next large =>
      obtain ⟨k, le, last, before, stopped⟩ := ih (next s)
      refine ⟨k + 1, Nat.succ_le_succ le, last, ?_, fun lt => stopped (Nat.lt_of_succ_lt_succ lt)⟩
      intro j hj
      cases j with
      | zero => exact large
      | succ j => exact before j (Nat.lt_of_succ_lt_succ hj)
    next small => exact ⟨0, Nat.zero_le _, rfl, by simp, fun _ => by simpa using small⟩

theorem unsolved_eq_false_iff {K V : Type} [LinearOrder K] {settings : NewtonSettings K}
    {norm : V → K} {r : V} : unsolved settings norm r = false ↔ norm r ≤ settings.tolerance := by
  rw [unsolved, decide_eq_false_iff_not, not_lt]

section

variable {K V M : Type} [LinearOrder K] [Add V] [Neg V] (settings : NewtonSettings K)
  (norm : V → K) (solve : M → V → V) (residual : V → V) (jacobian : V → M) (guess : V)

/-- When the loop has to stop at element `k` of the sequence. -/
def StopsAt (k : Nat) : Prop :=
  norm (residual (iterates solve residual jacobian guess k)) ≤ settings.tolerance ∨
    settings.maxIterations ≤ k

/-- A run is the first element of the sequence at which the loop has to stop. -/
theorem run_eq_stateAt :
    ∃ k, IsLeast {k | StopsAt settings norm solve residual jacobian guess k} k ∧
      run settings norm solve residual jacobian guess =
        stateAt solve residual jacobian guess k := by
  obtain ⟨k, le, last, before, stopped⟩ := iterate_stops (unsolved settings norm)
    (step solve residual jacobian) settings.maxIterations.toNat ⟨guess, residual guess, 0⟩
  simp only [step_iterate] at last before stopped
  refine ⟨k, ⟨?_, ?_⟩, last⟩
  · -- either the tolerance has been reached, or no step is left
    rcases Nat.lt_or_ge k settings.maxIterations.toNat with lt | ge
    · exact Or.inl (unsolved_eq_false_iff.mp (stopped lt))
    · exact Or.inr (Int.toNat_le.mp ge)
  · intro j stops
    by_contra earlier
    have earlier : j < k := not_le.mp earlier
    rcases stops with small | used
    · have large : unsolved settings norm
          (residual (iterates solve residual jacobian guess j)) = true := before j earlier
      rw [unsolved_eq_false_iff.mpr small] at large
      cases large
    · omega

/-- **Where Newton's method stops, and when it warns.**  The states of the loop are
    the elements of the sequence, each with its own residual and number.  The
    run ends with the first of them whose residual is within the tolerance or
    whose number is not below the limit, so after at most that many steps and
    after none if the limit is negative.  It counts as failed exactly if the
    residual of the point that it returns is not within the tolerance. -/
theorem run_stops :
    (∀ k, (step solve residual jacobian)^[k] ⟨guess, residual guess, 0⟩ =
      ⟨iterates solve residual jacobian guess k,
        residual (iterates solve residual jacobian guess k), k⟩) ∧
    (let last := run settings norm solve residual jacobian guess
     IsLeast {k : Nat | norm (residual (iterates solve residual jacobian guess k)) ≤
       settings.tolerance ∨ settings.maxIterations ≤ k} last.iterations ∧
     last.iterations ≤ max settings.maxIterations 0 ∧
     last.point = iterates solve residual jacobian guess last.iterations ∧
     last.residual = residual last.point ∧
     (failed settings norm last = true ↔ settings.tolerance < norm (residual last.point)) ∧
     (failed settings norm last = false → norm (residual last.point) ≤ settings.tolerance)) := by
  obtain ⟨k, least, last⟩ := run_eq_stateAt settings norm solve residual jacobian guess
  have bound : (k : Int) ≤ max settings.maxIterations 0 := by
    have limit : StopsAt settings norm solve residual jacobian guess settings.maxIterations.toNat :=
      Or.inr (Int.self_le_toNat _)
    have := least.2 limit
    omega
  -- a run that stops with a large residual has used up its iterations
  have fails : failed settings norm (stateAt solve residual jacobian guess k) = true ↔
      settings.tolerance < norm (residual (iterates solve residual jacobian guess k)) := by
    rw [failed, Bool.and_eq_true, decide_eq_true_eq, unsolved, decide_eq_true_eq]
    refine ⟨And.right, fun large => ⟨?_, large⟩⟩
    exact least.1.resolve_left (not_le.mpr large)
  dsimp only
  rw [last]
  refine ⟨step_iterate solve residual jacobian guess, least, bound, rfl, rfl, fails, ?_⟩
  intro succeeded
  rw [← not_lt]
  intro large
  rw [fails.mpr large] at succeeded
  cases succeeded

end

end Newton

end JetForm
