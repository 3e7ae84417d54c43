import JetForm.Proofs.Differential.Rational
import JetForm.Proofs.Integrate.Jacobian
import JetForm.Proofs.Reduction.ConditionOrder

/-! # Linear conditions

    The residual of linear conditions is an affine function of the state.
    Forward differences give its derivative, so one iteration of Newton's method
    leads from any guess to the state that satisfies the conditions.  Whether it
    is taken at all depends on the tolerance: a guess whose residual is small
    enough is returned as it is. -/

namespace JetForm

namespace InitialState

/-! ## One iteration -/

section

variable {K : Type} [Field K] {E : Evaluation K} {t : K} {g : VectorField}
  {A : Matrix K g.size g.size} {c : Vector K g.size}

/-- The state from which the search starts. -/
def start (n : Nat) (guess : Option (List K)) : Vector K n :=
  Vector.ofFn fun i => (guess.getD (List.replicate n 0))[i.1]?.getD 0

theorem toList_start {n : Nat} {guess : Option (List K)} (fits : ∀ y ∈ guess, y.length = n) :
    (start n guess).toList = guess.getD (List.replicate n 0) := by
  have length : (guess.getD (List.replicate n 0)).length = n := by
    cases guess with
    | none => simp
    | some y => exact fits y rfl
  refine List.ext_getElem (by simp [length]) fun i h h' => ?_
  simp [start, h']

/-- An affine residual has the matrix as its derivative, everywhere. -/
theorem isDerivative_of_affine (affine : ∀ y, g.eval E t y = A.apply y + c)
    (z : Vector K g.size) : IsDerivative (g.eval E t) A z := by
  intro v
  rw [affine, affine, Matrix.apply_add]
  exact add_right_comm _ _ _

variable [LinearOrder K] {N : Numerics K}

/-- The end of the iteration is the only zero of an affine residual. -/
theorem apply_eq_neg_iff (affine : ∀ y, g.eval E t y = A.apply y + c)
    (nonsingular : A.Nonsingular) (solves : N.Solves g.size) (z y : Vector K g.size) :
    A.apply y = -c ↔ y = z + N.solve A (-g.eval E t z) := by
  rw [← (isDerivative_of_affine affine z).eq_zero_iff nonsingular
    (solves.apply_solve A _ nonsingular), affine, eq_neg_iff_add_eq_zero]

variable [IsStrictOrderedRing K] {settings : NewtonSettings K}

/-- For an affine residual the search ends at the guess, if this is good enough, or after one
    iteration. -/
theorem search_eq_of_affine (affine : ∀ y, g.eval E t y = A.apply y + c)
    (nonsingular : A.Nonsingular) (solves : N.Solves g.size) (tolerance : 0 ≤ settings.tolerance)
    (iterations : 1 ≤ settings.maxIterations) (guess : Option (List K)) :
    search E N settings t guess g =
      let first := start g.size guess
      if settings.tolerance < N.norm (g.eval E t first) then
        ⟨first + N.solve A (-g.eval E t first), 0, 1⟩
      else ⟨first, g.eval E t first, 0⟩ := by
  have small : N.norm (0 : Vector K g.size) ≤ settings.tolerance := solves.norm_zero ▸ tolerance
  have jacobian : Difference.jacobian N.eps (g.eval E t) (start g.size guess) = A :=
    Difference.jacobian_affine solves.eps_pos affine _
  have exact : IsDerivative (g.eval E t)
      (Difference.jacobian N.eps (g.eval E t) (start g.size guess)) (start g.size guess) :=
    jacobian ▸ isDerivative_of_affine affine _
  refine (Newton.run_derivative small iterations exact ?_).trans ?_
  · rw [jacobian]
    exact solves.apply_solve A _ nonsingular
  · simp only [Newton.unsolved, decide_eq_true_eq, jacobian]

/-- **Linear conditions are solved in one iteration.**  Let the residual of sorted conditions be
    affine with a nonsingular matrix.  Over exact arithmetic the search for its zero takes at most
    one iteration and does not fail.  It ends at the one state that satisfies the conditions,
    unless the residual of the guess is within the tolerance; then it ends at the guess. -/
theorem search_affine {conditions : SortedConditions} {r : Registry} {slots : SlotTable}
    {a b : Arena} (compiled : residualField conditions r slots a = .ok g b)
    (affine : ∀ y, g.eval E t y = A.apply y + c) (nonsingular : A.Nonsingular)
    (solves : N.Solves g.size) (tolerance : 0 ≤ settings.tolerance)
    (iterations : 1 ≤ settings.maxIterations) (guess : Option (List K))
    (fits : ∀ y ∈ guess, y.length = slots.size) :
    let first := start g.size guess
    let last := search E N settings t guess g
    first.toList = guess.getD (List.replicate slots.size 0) ∧
      last.iterations ≤ 1 ∧ Newton.failed settings N.norm last = false ∧
      (N.norm (g.eval E t first) ≤ settings.tolerance → last.point = first) ∧
      (settings.tolerance < N.norm (g.eval E t first) → ∀ y, A.apply y = -c ↔ y = last.point) := by
  have size : g.size = slots.size := size_residualField compiled
  have small : N.norm (0 : Vector K g.size) ≤ settings.tolerance := solves.norm_zero ▸ tolerance
  intro first last
  have ends : last = _ := search_eq_of_affine affine nonsingular solves tolerance iterations guess
  refine ⟨size ▸ toList_start (size ▸ fits), ?_⟩
  rcases le_or_gt (N.norm (g.eval E t first)) settings.tolerance with near | far
  · rw [if_neg near.not_gt] at ends
    rw [ends]
    refine ⟨Nat.zero_le _, ?_, fun _ => rfl, fun far => absurd near far.not_ge⟩
    rw [Newton.failed, Newton.unsolved, decide_eq_false near.not_gt, Bool.and_false]
  · rw [if_pos far] at ends
    rw [ends]
    refine ⟨le_rfl, ?_, fun near => absurd near far.not_ge, fun _ => ?_⟩
    · rw [Newton.failed, Newton.unsolved, decide_eq_false small.not_gt, Bool.and_false]
    · exact fun y => apply_eq_neg_iff affine nonsingular solves first y

end

/-! ## An unknown that settles -/

/-- A number stands for the rational number that its double is. -/
def rationalValue (v : Value) (_ : ℚ) : ℚ :=
  match v with
  | .number n => n.rational
  | .external _ => 0

theorem rationalValue_key (v : Value) : rationalValue v.key = rationalValue v := by
  cases v with
  | number n => exact funext fun _ => Number.rational_key n
  | external f => rfl

/-- Evaluation with rational numbers, of signs and of the four operations. -/
def rationals : Evaluation ℚ :=
  .exact rationalValue
    (fun op x =>
      match op with
      | .uminus => -x
      | _ => x)
    fun op x y =>
      match op with
      | .plus => x + y
      | .minus => x - y
      | .times => x * y
      | .rdivide => x / y
      | .power => x

/-- The conditions `u' + u = 0` and `u' - 1 = 0`. -/
def settling : Building (List Nat) := do
  let u ← Arena.leaf 0
  let du ← Arena.derivative u 1
  let one ← Arena.intern (.number (.int 1))
  let sum ← Arena.binary .plus (.treeTree du u)
  let rate ← Arena.binary .minus (.treeValue du one)
  return [sum, rate]

/-- The trees of both conditions. -/
structure Settles (a : Arena) (x y : Nat) : Prop where
  wellFormed : a.WellFormed
  sum_inside : x < a.count
  rate_inside : y < a.count
  sum : a.expression x = .treeTree .plus (.derivative (.leaf 0) 1) (.leaf 0)
  rate : a.expression y = .treeValue .minus (.derivative (.leaf 0) 1) (.number (.int 1))

theorem settling_settles : Ends settling (.empty 1)
    (fun roots a => ∃ x y, roots = [x, y] ∧ Settles a x y) fun _ _ => False := by
  refine Ends.bind ((Arena.leaf_makes (Arena.wellFormed_empty 1 0) (by decide)).weaken ?_)
  intro u a₁ unknown
  refine Ends.bind
    ((Arena.derivative_makes unknown.wellFormed (by decide) unknown.inside).weaken ?_)
  intro du a₂ slope
  refine Ends.bind ((Arena.intern_interns slope.wellFormed _).weaken ?_)
  intro one a₃ interned
  have inside := interned.grown.lt_count slope.inside
  have leaf := (slope.grown.trans interned.grown).expression unknown.wellFormed unknown.inside
  have below := interned.grown.expression slope.wellFormed slope.inside
  rw [unknown.expression] at leaf
  rw [slope.expression, unknown.expression] at below
  refine Ends.bind ((Arena.treeTree_makes interned.wellFormed .plus inside
    ((slope.grown.trans interned.grown).lt_count unknown.inside)).weaken ?_)
  intro x a₄ sum
  obtain ⟨stored, same⟩ := sum.grown.value one interned.inside
  refine Ends.bind ((Arena.treeValue_makes sum.wellFormed .minus (sum.grown.lt_count inside)
    stored).mono ?_ fun _ _ => nofun)
  intro y a₅ rate
  refine Ends.pure ⟨x, y, rfl, rate.wellFormed, rate.grown.lt_count sum.inside, rate.inside, ?_, ?_⟩
  · rw [rate.grown.expression sum.wellFormed sum.inside, sum.expression, below, leaf]
  · rw [rate.expression, sum.grown.expression interned.wellFormed inside, below, same, interned.key]
    rfl

theorem Settles.ready {a : Arena} {x y : Nat} (settles : Settles a x y) : ∀ root ∈ [x, y],
    root < a.count ∧ (a.expression root).isNormal = true ∧ a.Repeatable root := by
  intro root hr
  rcases List.mem_pair.mp hr with rfl | rfl
  · refine ⟨settles.sum_inside, by rw [settles.sum]; rfl, ?_⟩
    rw [Arena.repeatable_iff settles.wellFormed settles.sum_inside, settles.sum]
    rfl
  · refine ⟨settles.rate_inside, by rw [settles.rate]; rfl, ?_⟩
    rw [Arena.repeatable_iff settles.wellFormed settles.rate_inside, settles.rate]
    rfl

/-- The residual has a component for each of them. -/
theorem Settles.components {a : Arena} {x y : Nat} (settles : Settles a x y)
    {f : Value → Value} (restored : ∀ v, f v = v ∨ (f v).key = v) (t : ℚ) (state : List ℚ) :
    component a Conditions.curved f rationals t x state =
        state[1]?.getD t + state[0]?.getD t ∧
      component a Conditions.curved f rationals t y state = state[1]?.getD t - 1 := by
  have one : (Number.int 1).rational = 1 := rationalOfFloat_one (by decide +kernel)
  refine ⟨?_, ?_⟩
  · refine (component_exact (by rw [settles.sum]; rfl) restored rationalValue_key t state).trans ?_
    rfl
  · refine (component_exact (by rw [settles.rate]; rfl) restored rationalValue_key t state).trans ?_
    show _ - (Number.int 1).rational = _
    rw [one]
    rfl

/-- The matrix of these conditions. -/
def settlingMatrix : Matrix ℚ 2 2 :=
  #v[#v[1, 1], #v[0, 1]]

theorem get_settlingMatrix (v : Vector ℚ 2) : (settlingMatrix.apply v).get 0 = v.get 0 + v.get 1 ∧
    (settlingMatrix.apply v).get 1 = v.get 1 := by
  simp only [Matrix.get_apply, Fin.sum_univ_two]
  refine ⟨?_, ?_⟩
  · show 1 * _ + 1 * _ = _
    ring
  · show 0 * _ + 1 * _ = _
    ring

theorem settlingMatrix_nonsingular : settlingMatrix.Nonsingular := by
  intro y z same
  have first := congrArg (·.get 0) same
  have second := congrArg (·.get 1) same
  simp only [get_settlingMatrix] at first second
  refine Vectors.ext_get fun i => ?_
  fin_cases i
  · exact add_right_cancel (second ▸ first)
  · exact second

/-- From any guess that is not good enough, the search finds `u = -1` and `u' = 1`. -/
theorem search_affine_settling : ∃ roots a sorted g b,
    settling (.empty 1) = .ok roots a ∧
    Conditions.sort a roots Conditions.curved Conditions.curved.slots 0 .left = .ok sorted ∧
    residualField sorted Conditions.curved Conditions.curved.slots a = .ok g b ∧
    let last := search rationals Solve.eliminationNumerics ⟨1 / 10, 1⟩ 0 (some [3, 4]) g
    last.iterations ≤ 1 ∧
      Newton.failed ⟨1 / 10, 1⟩ Solve.eliminationNumerics.norm last = false ∧
      last.point.toList = [-1, 1] := by
  have sorts : Ends settling (.empty 1) (fun roots a =>
      Conditions.sort a roots Conditions.curved Conditions.curved.slots 0 .left =
        .ok ⟨[⟨0, 0, 0, 0, 2⟩, ⟨1, 0, 1, 1, 3⟩], 0, .left⟩ ∧ roots = [2, 3]) fun _ _ => False := by
    cbv
  obtain ⟨_, a, run, ⟨x, y, rfl, settles⟩, sorted, same⟩ := ((settling_settles.and sorts).mono
    (fun _ _ => id) fun _ _ => And.left).exists_ok
  obtain ⟨rfl, rfl⟩ : x = 2 ∧ y = 3 := by simpa using same
  obtain ⟨g, b, made, -⟩ := (residualField_of_sort settles.wellFormed settles.ready sorted).exists_ok
  obtain ⟨f, restores, restored⟩ := Arena.exists_restores settles.wellFormed
  obtain ⟨size, components⟩ := (residualField_components settles.wellFormed restores
    (Conditions.stored_of_sort sorted)).of_ok made
  refine ⟨[2, 3], a, _, g, b, run, sorted, made, ?_⟩
  obtain ⟨program, n, outputs, within⟩ := g
  obtain rfl : n = 2 := size
  -- the residual is affine with the settling matrix, so the general statement applies to it
  have affine : ∀ v, VectorField.eval rationals ⟨program, 2, outputs, within⟩ 0 v =
      settlingMatrix.apply v + #v[0, -1] := by
    intro v
    have entries : (VectorField.eval rationals ⟨program, 2, outputs, within⟩ 0 v).toList =
        [v[1] + v[0], v[1] - 1] := by
      rw [components ℚ rationals 0 v]
      simp [settles.components restored]
    have entry : ∀ i (hi : i < 2),
        (VectorField.eval rationals ⟨program, 2, outputs, within⟩ 0 v)[i] =
          [v[1] + v[0], v[1] - 1][i] := fun i hi => List.getElem_of_eq entries (by simpa using hi)
    refine Vectors.ext_get fun i => ?_
    rw [Vectors.get_add]
    fin_cases i
    · refine (entry 0 (by decide)).trans ?_
      show v[1] + v[0] = (settlingMatrix.apply v).get 0 + 0
      rw [(get_settlingMatrix v).1, add_zero]
      exact add_comm _ _
    · refine (entry 1 (by decide)).trans ?_
      show v[1] - 1 = (settlingMatrix.apply v).get 1 + -1
      rw [(get_settlingMatrix v).2, ← sub_eq_add_neg]
      rfl
  have tolerance : 0 ≤ (⟨1 / 10, 1⟩ : NewtonSettings ℚ).tolerance := by norm_num
  obtain ⟨-, quick, works, -, solved⟩ := search_affine made affine settlingMatrix_nonsingular
    (Solve.eliminationNumerics_solves 2) tolerance le_rfl (some [3, 4]) (by simp; rfl)
  refine ⟨quick, works, ?_⟩
  have large : (1 / 10 : ℚ) < Solve.eliminationNumerics.norm
      (settlingMatrix.apply (start 2 (some [3, 4])) + #v[0, -1]) := by
    decide +kernel
  have zero : settlingMatrix.apply #v[-1, 1] = -#v[0, -1] := by
    decide +kernel
  have far : (1 / 10 : ℚ) < Solve.eliminationNumerics.norm
      (VectorField.eval rationals ⟨program, 2, outputs, within⟩ 0 (start 2 (some [3, 4]))) := by
    rw [affine]
    exact large
  rw [← (solved far #v[-1, 1]).mp zero]
  rfl

end InitialState

end JetForm
