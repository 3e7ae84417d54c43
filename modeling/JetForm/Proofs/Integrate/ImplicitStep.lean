import JetForm.Proofs.Integrate.Jacobian
import JetForm.Proofs.Numerics.Newton

/-! # Backward Euler steps on affine fields

    On a field `A t y + g t` the equation of a step has the matrix `1 - h A`, with
    `A` at the end of the step.  If this is nonsingular there is exactly one
    solution.  The matrix that a step hands to the linear solver is the same
    one, whether the Jacobian of the field is estimated or given, and whatever
    the sign of the step.  So a step ends at the solution, after at most one
    iteration, unless its guess is within the tolerance already. -/

namespace JetForm

variable {K : Type} {n : Nat}

namespace BackwardEuler

section

variable [Field K] {A : K → Matrix K n n} {g : K → Vector K n} {f : K → Vector K n → Vector K n}
  {J : K → Vector K n → Matrix K n n} {t h : K} {y z : Vector K n}

theorem residualJacobian_eq (same : J (t + h) z = A (t + h)) :
    residualJacobian J t h z = Matrix.identity - h • A (t + h) := by
  refine Vectors.ext_get fun i => Vectors.ext_get fun j => ?_
  simp [residualJacobian, Matrix.ofFn, Matrix.identity, ← same]

/-- In steps of any length the Jacobian of the field leads to the derivative of what a step makes
    zero. -/
theorem isDerivative_residual (affine : Affine A g f) (same : J (t + h) z = A (t + h)) :
    IsDerivative (residual f t y h) (residualJacobian J t h z) z := by
  intro v
  rw [residual_add affine, residualJacobian_apply, same]

end

section

variable [Field K] [LinearOrder K] {N : Numerics K} {newton : NewtonSettings K}
  {f : K → Vector K n → Vector K n} {jacobian : Option (K → Vector K n → Matrix K n n)}
  {t h : K} {y : Vector K n}

/-- A step that ends within the tolerance does not count as failed. -/
theorem advance_of_solved {last : NewtonState (Vector K n)}
    (ends : step newton N.norm N.solve (Solve.fieldJacobian N jacobian f) f t y h = last)
    (solved : N.norm last.residual ≤ newton.tolerance) (failures : Nat) :
    (Method.backwardEuler newton jacobian).advance N f t (y, failures) h =
      (last.point, failures) := by
  have succeeded : Newton.failed newton N.norm last = false := by
    rw [Newton.failed, Newton.unsolved_eq_false_iff.mpr solved, Bool.and_false]
  have advance : (Method.backwardEuler newton jacobian).advance N f t (y, failures) h =
      (last.point, failures + if Newton.failed newton N.norm last then 1 else 0) := by
    rw [← ends]
    rfl
  rw [advance, succeeded]
  rfl

variable [IsStrictOrderedRing K] {A : K → Matrix K n n} {g : K → Vector K n}

/-- Forward differences and a Jacobian that is given give the matrix of an affine field. -/
theorem fieldJacobian_affine (solves : N.Solves n) (affine : Affine A g f)
    (given : jacobian = none ∨ jacobian = some fun t _ => A t) (t : K) (z : Vector K n) :
    Solve.fieldJacobian N jacobian f t z = A t := by
  rcases given with rfl | rfl
  · exact Difference.jacobian_affine solves.eps_pos (affine t) z
  · rfl

/-- **A backward Euler step on an affine field solves its equation.**  If the matrix of the
    equation is nonsingular, there is exactly one solution.  A step of any length, forwards or
    backwards, ends there after one Newton iteration, or after none at its guess if that is
    within the tolerance.  No solve counts as failed. -/
theorem advance_affine (solves : N.Solves n) (affine : Affine A g f)
    (given : jacobian = none ∨ jacobian = some fun t _ => A t)
    (tolerance : 0 ≤ newton.tolerance) (iterations : 1 ≤ newton.maxIterations)
    (nonsingular : (Matrix.identity - h • A (t + h)).Nonsingular) (y : Vector K n)
    (failures : Nat) :
    ∃ z : Vector K n, (∀ w, w - y - h • f (t + h) w = 0 ↔ w = z) ∧
      let first := y + h • f t y
      let last := step newton N.norm N.solve (Solve.fieldJacobian N jacobian f) f t y h
      let close := N.norm (first - y - h • f (t + h) first) ≤ newton.tolerance
      last.iterations = (if close then 0 else 1) ∧
        (Method.backwardEuler newton jacobian).advance N f t (y, failures) h =
          (if close then first else z, failures) := by
  -- the Jacobian is asked for at the guess, but it does not depend on the state
  have same := fieldJacobian_affine solves affine given (t + h) (guess f t y h)
  have derivative := isDerivative_residual (y := y) affine same
  rw [← residualJacobian_eq same] at nonsingular
  have solved := solves.apply_solve _ (-residual f t y h (guess f t y h)) nonsingular
  have small := solves.norm_zero.trans_le tolerance
  have run := Newton.run_derivative small iterations derivative solved
  refine ⟨_, derivative.eq_zero_iff nonsingular solved, ?_⟩
  intro first last close
  by_cases near : close
  · have stays : last = ⟨first, residual f t y h first, 0⟩ :=
      run.trans (if_neg fun far => (of_decide_eq_true far).not_ge near)
    rw [if_pos near, if_pos near]
    exact ⟨congrArg NewtonState.iterations stays, advance_of_solved stays near failures⟩
  · have moves := run.trans (if_pos (decide_eq_true (not_le.mp near)))
    rw [if_neg near, if_neg near]
    exact ⟨congrArg NewtonState.iterations moves, advance_of_solved moves small failures⟩

end

/-- A rotation that grows at a rate that is the time. -/
def spiral (t : ℚ) : Matrix ℚ 2 2 :=
  #v[#v[t, 1], #v[-1, t]]

/-- The spiral under a force that is the time. -/
def driven (t : ℚ) (y : Vector ℚ 2) : Vector ℚ 2 :=
  (spiral t).apply y + #v[0, t]

theorem spiral_nonsingular :
    (Matrix.identity - (-1 / 2 : ℚ) • spiral (1 + -1 / 2)).Nonsingular := by
  have matrix : Matrix.identity - (-1 / 2 : ℚ) • spiral (1 + -1 / 2) =
      #v[#v[5 / 4, 1 / 2], #v[-1 / 2, 5 / 4]] := by
    decide +kernel
  have inverse : Function.LeftInverse
      (Matrix.apply #v[#v[20 / 29, -8 / 29], #v[8 / 29, 20 / 29]])
      (Matrix.apply #v[#v[5 / 4, 1 / 2], #v[-1 / 2, (5 / 4 : ℚ)]]) := by
    intro z
    refine Vectors.ext_get fun i => ?_
    simp only [Matrix.get_apply, Fin.sum_univ_two]
    fin_cases i
    · show 20 / 29 * (5 / 4 * z.get 0 + 1 / 2 * z.get 1) +
        -8 / 29 * (-1 / 2 * z.get 0 + 5 / 4 * z.get 1) = z.get 0
      ring
    · show 8 / 29 * (5 / 4 * z.get 0 + 1 / 2 * z.get 1) +
        20 / 29 * (-1 / 2 * z.get 0 + 5 / 4 * z.get 1) = z.get 1
      ring
  rw [matrix]
  exact inverse.injective

/-- A step backwards in time, with an estimated Jacobian. -/
theorem advance_affine_driven :
    (∀ w : Vector ℚ 2, w - #v[1, 1] - (-1 / 2 : ℚ) • driven (1 + -1 / 2) w = 0 ↔
      w = #v[14 / 29, 23 / 29]) ∧
    (Method.backwardEuler ⟨1 / 100, 1⟩ none).advance Solve.eliminationNumerics driven 1
      (#v[1, 1], 3) (-1 / 2) = (#v[14 / 29, 23 / 29], 3) := by
  have tolerance : (0 : ℚ) ≤ (⟨1 / 100, 1⟩ : NewtonSettings ℚ).tolerance := by norm_num
  have affine : Affine spiral (fun t => #v[0, t]) driven := fun _ _ => rfl
  obtain ⟨z, only, -, ends⟩ := advance_affine (Solve.eliminationNumerics_solves 2) affine
    (.inl rfl) tolerance le_rfl spiral_nonsingular #v[1, 1] 3
  obtain rfl : #v[14 / 29, 23 / 29] = z := (only _).mp (by decide +kernel)
  rw [if_neg (by decide +kernel)] at ends
  exact ⟨only, ends⟩

end BackwardEuler

end JetForm
