import Mathlib.Tactic.Module
import JetForm.Proofs.Integrate.Strides
import JetForm.Proofs.Numerics.Elimination

/-! # Newton's method on affine fields

    For a field `A t y + g t` a backward Euler step makes an affine function
    zero.  Newton's method needs one iteration for that, provided that it is
    given the derivative of this function and the derivative is nonsingular.

    Forward differences of an affine function are exact, and they are taken of
    the very field that is integrated.  A Jacobian that is given with the method
    belongs to the field of the problem instead.  So it is the right one
    forwards; backwards, where the reflected field is integrated, its sign and
    its time are those of the other direction. -/

namespace JetForm

variable {K : Type} {n : Nat}

/-! ## Affine fields -/

section

variable [Field K]

/-- A field that is affine in the state. -/
def Affine (A : K → Matrix K n n) (g : K → Vector K n) (f : K → Vector K n → Vector K n) : Prop :=
  ∀ t y, f t y = (A t).apply y + g t

/-- The derivative of an affine function at a point. -/
def IsDerivative (R : Vector K n → Vector K n) (J : Matrix K n n) (z : Vector K n) : Prop :=
  ∀ v, R (z + v) = R z + J.apply v

/-- A step of Newton's method with the derivative leads to the only zero. -/
theorem IsDerivative.eq_zero_iff {R : Vector K n → Vector K n} {M : Matrix K n n}
    {z v : Vector K n} (derivative : IsDerivative R M z) (nonsingular : M.Nonsingular)
    (solves : M.apply v = -R z) (w : Vector K n) : R w = 0 ↔ w = z + v := by
  have moved : R w = R z + M.apply (w - z) := by
    rw [← derivative (w - z), add_sub_cancel]
  rw [moved, add_comm, ← eq_neg_iff_add_eq_zero, ← solves, nonsingular.eq_iff, sub_eq_iff_eq_add']

/-- The reflected field is affine as well. -/
theorem Affine.reflect {A : K → Matrix K n n} {g : K → Vector K n}
    {f : K → Vector K n → Vector K n} (affine : Affine A g f) (a b : K) :
    Affine (fun t => -A (Steps.reflect a b t)) (fun t => -g (Steps.reflect a b t))
      (Steps.reflectField a b f) := by
  intro t y
  rw [Steps.reflectField, affine, Matrix.neg_apply, neg_add]

end

/-! ## Forward differences -/

namespace Difference

/-- Entry `(i, j)` comes from moving entry `j`. -/
theorem get_jacobian [Zero K] [One K] [Neg K] [Add K] [Sub K] [Mul K] [Div K] [LT K] [DecidableLT K]
    [LE K] [DecidableLE K] (eps : K) (f : Vector K n → Vector K n) (y : Vector K n) (i j : Fin n) :
    ((jacobian eps f y).get i).get j =
      ((f (moved y j (increment eps (y.get j)))).get i - (f y).get i) /
        increment eps (y.get j) := by
  simp only [jacobian, Matrix.ofFn, Vectors.get_ofFn, Fin.getElem_fin, Vector.getElem_ofFn,
    Vector.getElem_zipWith]
  rfl

variable [Field K] [LinearOrder K] [IsStrictOrderedRing K]

theorem increment_eq (eps y : K) : increment eps y = eps * max 1 |y| := by
  rw [increment, larger, Linear.magnitude_eq_abs]
  split_ifs with h
  · rw [max_eq_left h]
  · rw [max_eq_right (not_le.mp h).le]

theorem increment_pos {eps : K} (heps : 0 < eps) (y : K) : 0 < increment eps y := by
  rw [increment_eq]
  exact mul_pos heps (zero_lt_one.trans_le (le_max_left _ _))

/-- Forward differences of an affine function are exact. -/
theorem jacobian_affine {eps : K} (heps : 0 < eps) {A : Matrix K n n} {c : Vector K n}
    {f : Vector K n → Vector K n} (affine : ∀ y, f y = A.apply y + c) (y : Vector K n) :
    jacobian eps f y = A := by
  refine Vectors.ext_get fun i => Vectors.ext_get fun j => ?_
  have hinc := (increment_pos heps (y.get j)).ne'
  rw [get_jacobian, affine, affine, Vectors.get_add, Vectors.get_add, Matrix.get_apply_moved]
  field_simp
  ring

end Difference

/-! ## One step -/

namespace BackwardEuler

section

variable [Field K] {A : K → Matrix K n n} {g : K → Vector K n} {f : K → Vector K n → Vector K n}
  {J : K → Vector K n → Matrix K n n} {t h : K} {y z : Vector K n}

theorem residualJacobian_apply (v : Vector K n) :
    (residualJacobian J t h z).apply v = v - h • (J (t + h) z).apply v := by
  refine Vectors.ext_get fun i => ?_
  have entry : ∀ j : Fin n, ((residualJacobian J t h z).get i).get j =
      (if i = j then 1 else 0) - h * ((J (t + h) z).get i).get j := fun j => by
    simp only [residualJacobian, Matrix.ofFn, Vectors.get_ofFn]
  rw [Vectors.get_sub, Vectors.get_smul, Matrix.get_apply, Matrix.get_apply, smul_eq_mul,
    Finset.mul_sum]
  simp only [entry, sub_mul, Finset.sum_sub_distrib, ite_mul, one_mul, zero_mul, mul_assoc,
    Finset.sum_ite_eq, Finset.mem_univ, if_true]

/-- What a step makes zero is affine. -/
theorem residual_add (affine : Affine A g f) (v : Vector K n) :
    residual f t y h (z + v) = residual f t y h z + (v - h • (A (t + h)).apply v) := by
  rw [residual, residual, affine, affine, Matrix.apply_add]
  module

/-- The matrix for Newton's method is the derivative if it is built from the
    Jacobian of the field at the end of the step. -/
theorem isDerivative_iff (affine : Affine A g f) (hstep : h ≠ 0) :
    IsDerivative (residual f t y h) (residualJacobian J t h z) z ↔ J (t + h) z = A (t + h) := by
  have both : IsDerivative (residual f t y h) (residualJacobian J t h z) z ↔
      ∀ v, (J (t + h) z).apply v = (A (t + h)).apply v := by
    refine forall_congr' fun v => ?_
    rw [residual_add affine, residualJacobian_apply, add_right_inj, sub_right_inj,
      (IsUnit.mk0 h hstep).smul_left_cancel]
    exact eq_comm
  rw [both]
  exact ⟨Matrix.apply_injective, fun h v => by rw [h]⟩

end

end BackwardEuler

/-! ## Newton's method -/

/-- What Newton's method relies on with vectors of one length: the norm of the origin is zero,
    finite differences have an increment, and nonsingular systems are solved. -/
structure Numerics.Solves [Field K] [LinearOrder K] (N : Numerics K) (n : Nat) : Prop where
  eps_pos : 0 < N.eps
  norm_zero : N.norm (0 : Vector K n) = 0
  apply_solve : ∀ (A : Matrix K n n) (b : Vector K n), A.Nonsingular → A.apply (N.solve A b) = b

namespace Newton

variable [Field K] [LinearOrder K] {settings : NewtonSettings K} {norm : Vector K n → K}
  {solve : Matrix K n n → Vector K n → Vector K n} {residual : Vector K n → Vector K n}
  {jacobian : Vector K n → Matrix K n n} {guess : Vector K n}

/-- Given its derivative, Newton's method goes from a guess that is not good enough to a zero of
    the residual, in one iteration, and stays there. -/
theorem run_derivative (small : norm 0 ≤ settings.tolerance) (positive : 0 < settings.maxIterations)
    (exact : IsDerivative residual (jacobian guess) guess)
    (solves : (jacobian guess).apply (solve (jacobian guess) (-residual guess)) = -residual guess) :
    run settings norm solve residual jacobian guess =
      if unsolved settings norm (residual guess) then
        ⟨guess + solve (jacobian guess) (-residual guess), 0, 1⟩
      else ⟨guess, residual guess, 0⟩ := by
  have solved : ∀ count (s : NewtonState (Vector K n)), s.residual = 0 →
      iterate (unsolved settings norm) (step solve residual jacobian) count s = s := by
    intro count s hzero
    cases count with
    | zero => rfl
    | succ count => rw [iterate, unsolved, hzero, decide_eq_false small.not_gt]; rfl
  have next : residual (guess + solve (jacobian guess) (-residual guess)) = 0 := by
    rw [exact, solves, add_neg_cancel]
  obtain ⟨count, hcount⟩ : ∃ count, settings.maxIterations.toNat = count + 1 :=
    Nat.exists_eq_add_one_of_ne_zero (by omega)
  rw [run, hcount, iterate]
  split_ifs with hopen
  · rw [solved _ _ next, step, next]
  · rfl

/-- Given its derivative, Newton's method solves an affine equation at once. -/
theorem run_affine (small : norm 0 ≤ settings.tolerance)
    (exact : IsDerivative residual (jacobian guess) guess)
    (solves : (jacobian guess).apply (solve (jacobian guess) (-residual guess)) = -residual guess) :
    (run settings norm solve residual jacobian guess).iterations ≤ 1 ∧
      (0 < settings.maxIterations →
        unsolved settings norm (run settings norm solve residual jacobian guess).residual =
          false) := by
  rcases le_or_gt settings.maxIterations 0 with none | positive
  · -- without iterations the guess is returned
    rw [run, Int.toNat_of_nonpos none, iterate]
    exact ⟨Nat.zero_le _, fun hpos => absurd hpos none.not_gt⟩
  · rw [run_derivative small positive exact solves]
    split_ifs with hopen
    · exact ⟨le_rfl, fun _ => decide_eq_false small.not_gt⟩
    · exact ⟨Nat.zero_le _, fun _ => by simpa using hopen⟩

end Newton

/-! ## All steps of a solution -/

namespace Solve

open Steps

/-- The Jacobian of the field that backward Euler takes: the given one, or
    forward differences of the field that is integrated. -/
def fieldJacobian [Field K] [LinearOrder K] (N : Numerics K)
    (jacobian : Option (K → Vector K n → Matrix K n n)) (f : K → Vector K n → Vector K n) :
    K → Vector K n → Matrix K n n :=
  jacobian.getD fun t z => Difference.jacobian N.eps (f t) z

section

variable [Field K]

/-- In this step the matrix for Newton's method is the derivative everywhere. -/
def ExactIn (J : K → Vector K n → Matrix K n n) (f : K → Vector K n → Vector K n)
    (q : Stride K (Vector K n × Nat)) : Prop :=
  ∀ z, IsDerivative (BackwardEuler.residual f q.start q.state.1 q.length)
    (BackwardEuler.residualJacobian J q.start q.length z) z

/-- In this step Newton's method ends after at most one iteration, and with a
    solution if it may take one, unless its first matrix is singular. -/
def QuickIn [LinearOrder K] (N : Numerics K) (newton : NewtonSettings K)
    (J : K → Vector K n → Matrix K n n) (f : K → Vector K n → Vector K n)
    (q : Stride K (Vector K n × Nat)) : Prop :=
  let last := BackwardEuler.step newton N.norm N.solve J f q.start q.state.1 q.length
  (BackwardEuler.residualJacobian J q.start q.length
      (BackwardEuler.guess f q.start q.state.1 q.length)).Nonsingular →
    last.iterations ≤ 1 ∧
      (0 < newton.maxIterations → Newton.unsolved newton N.norm last.residual = false)

end

variable [Field K] [LinearOrder K] {N : Numerics K} {newton : NewtonSettings K}

/-- A step with the derivative is quick. -/
theorem ExactIn.quick {J : K → Vector K n → Matrix K n n} {f : K → Vector K n → Vector K n}
    {q : Stride K (Vector K n × Nat)} (exact : ExactIn J f q)
    (small : N.norm (0 : Vector K n) ≤ newton.tolerance)
    (solves : ∀ (A : Matrix K n n) (b : Vector K n), A.Nonsingular → A.apply (N.solve A b) = b) :
    QuickIn N newton J f q := fun nonsingular =>
  Newton.run_affine small (exact _) (solves _ _ nonsingular)

variable {A : K → Matrix K n n} {g : K → Vector K n} {f : K → Vector K n → Vector K n}
  {q : Stride K (Vector K n × Nat)}

/-- With a given Jacobian exactly those steps have the derivative at whose end
    it is the Jacobian of the field that is integrated. -/
theorem exactIn_given {B : K → Matrix K n n} (affine : Affine A g f) (hlength : 0 < q.length) :
    ExactIn (fieldJacobian N (some fun t _ => B t) f) f q ↔ B q.stop = A q.stop :=
  ⟨fun exact => (BackwardEuler.isDerivative_iff affine hlength.ne').mp (exact 0),
    fun same _ => (BackwardEuler.isDerivative_iff affine hlength.ne').mpr same⟩

variable [IsStrictOrderedRing K]

/-- With forward differences every step has the derivative. -/
theorem exactIn_differences (heps : 0 < N.eps) (affine : Affine A g f) (hlength : 0 < q.length) :
    ExactIn (fieldJacobian N none f) f q := fun _ =>
  (BackwardEuler.isDerivative_iff affine hlength.ne').mpr
    (Difference.jacobian_affine heps (affine _) _)

variable {jacobian : Option (K → Vector K n → Matrix K n n)} {size : K} {budget : K → K → Nat}
  {requested : Option (List K)}

/-- **Which steps of backward Euler have the derivative of their residual.**  For
    an affine field, and a method that estimates its Jacobian or is given it,
    all steps of an initial-value problem do.  Those of a final-value problem do
    if the Jacobian is estimated; if it is given, those do at whose end it is
    the negative of itself at the reflected time.  Wherever the derivative is
    used and nonsingular, Newton's method ends after at most one iteration. -/
theorem exact_steps [Finiteness K] (heps : 0 < N.eps)
    (small : N.norm (0 : Vector K n) ≤ newton.tolerance)
    (solves : ∀ (A : Matrix K n n) (b : Vector K n), A.Nonsingular → A.apply (N.solve A b) = b)
    (affine : Affine A g f) (given : jacobian = none ∨ jacobian = some fun t _ => A t)
    (hsize : 0 < size) (enough : Suffices size budget) (d : Domain K)
    (accepted : checkTimes d requested = .ok ()) (y : Vector K n) :
    (∃ s strides,
      forwardRecorded N (.backwardEuler newton jacobian) f size budget requested d.points y =
        some (s, strides) ∧
      forward N (.backwardEuler newton jacobian) f size budget requested d.points y = some s ∧
      ∀ q ∈ strides, ExactIn (fieldJacobian N jacobian f) f q ∧
        QuickIn N newton (fieldJacobian N jacobian f) f q) ∧
    (∃ s strides,
      backwardRecorded N (.backwardEuler newton jacobian) f size budget requested d.points y =
        some (s, strides) ∧
      backward N (.backwardEuler newton jacobian) f size budget requested d.points y = some s ∧
      ∀ q ∈ strides,
        let back := reflectField d.left d.right f
        (ExactIn (fieldJacobian N jacobian back) back q ↔
          jacobian = none ∨ A q.stop = -A (reflect d.left d.right q.stop)) ∧
        (ExactIn (fieldJacobian N jacobian back) back q →
          QuickIn N newton (fieldJacobian N jacobian back) back q)) := by
  have within := checkTimes_iff.mp accepted
  have first : d.points.head? = some d.left := List.head?_eq_some_head d.points_ne_nil
  have last : d.points.getLast? = some d.right := List.getLast?_eq_some_getLast d.points_ne_nil
  obtain ⟨s, strides, z, hs, path, -⟩ := forwardRecorded_path N (.backwardEuler newton jacobian) f
    hsize enough d.points_increasing first last within y
  obtain ⟨s', strides', z', hs', path', -⟩ := backwardRecorded_path N
    (.backwardEuler newton jacobian) f hsize enough d.points_increasing first last within y
  refine ⟨⟨s, strides, hs, forward_of_recorded hs, fun q hq => ?_⟩,
    ⟨s', strides', hs', backward_of_recorded hs', fun q hq => ⟨?_, fun exact =>
      exact.quick small solves⟩⟩⟩
  -- forwards the matrix is that of the field, given or found by differences
  · have exact : ExactIn (fieldJacobian N jacobian f) f q := by
      rcases given with rfl | rfl
      · exact exactIn_differences heps affine (path.length_pos q hq)
      · exact (exactIn_given affine (path.length_pos q hq)).mpr rfl
    exact ⟨exact, exact.quick small solves⟩
  -- backwards a matrix that is given stays as it is, whatever the field
  · have back := affine.reflect d.left d.right
    rcases given with rfl | rfl
    · exact ⟨fun _ => .inl rfl, fun _ => exactIn_differences heps back (path'.length_pos q hq)⟩
    · rw [exactIn_given back (path'.length_pos q hq)]
      simp

/-! ## Growth, backwards -/

/-- Rationals with the square of the Euclidean norm, and with elimination. -/
def eliminationNumerics : Numerics ℚ :=
  ⟨fun x => (x.toList.map fun v => v * v).sum, Linear.solve, 1 / 1000⟩

theorem eliminationNumerics_norm_zero (n : Nat) :
    eliminationNumerics.norm (0 : Vector ℚ n) = 0 := by
  have zeros : (0 : Vector ℚ n).toList = List.replicate n 0 :=
    List.ext_getElem (by simp) fun i h h' => by simp
  simp [eliminationNumerics, zeros]

theorem eliminationNumerics_solves (n : Nat) : eliminationNumerics.Solves n where
  eps_pos := by norm_num [eliminationNumerics]
  norm_zero := eliminationNumerics_norm_zero n
  apply_solve _ b nonsingular := Linear.solve_solves nonsingular b

/-- A rate of growth that is the time. -/
def slope (t : ℚ) : Matrix ℚ 1 1 :=
  Matrix.ofFn fun _ _ => t

/-- Growth at that rate, and a constant source. -/
def sloped (t : ℚ) (y : Vector ℚ 1) : Vector ℚ 1 :=
  (slope t).apply y + Vector.replicate 1 1

/-- A given Jacobian that depends on the time, on two pieces. -/
theorem exact_steps_halves :
    (∃ s strides,
      forwardRecorded eliminationNumerics (.backwardEuler ⟨1 / 100, 50⟩ (some fun t _ => slope t))
        sloped (1 / 3) (fun a b => ⌈(b - a) / (1 / 3)⌉₊) (some [1 / 4, 1 / 2]) halves.points
        #v[1] = some (s, strides) ∧
      forward eliminationNumerics (.backwardEuler ⟨1 / 100, 50⟩ (some fun t _ => slope t))
        sloped (1 / 3) (fun a b => ⌈(b - a) / (1 / 3)⌉₊) (some [1 / 4, 1 / 2]) halves.points
        #v[1] = some s ∧
      ∀ q ∈ strides,
        ExactIn (fieldJacobian eliminationNumerics (some fun t _ => slope t) sloped) sloped q ∧
        QuickIn eliminationNumerics ⟨1 / 100, 50⟩
          (fieldJacobian eliminationNumerics (some fun t _ => slope t) sloped) sloped q) ∧
    (∃ s strides,
      backwardRecorded eliminationNumerics
        (.backwardEuler ⟨1 / 100, 50⟩ (some fun t _ => slope t)) sloped (1 / 3)
        (fun a b => ⌈(b - a) / (1 / 3)⌉₊) (some [1 / 4, 1 / 2]) halves.points #v[1] =
          some (s, strides) ∧
      backward eliminationNumerics (.backwardEuler ⟨1 / 100, 50⟩ (some fun t _ => slope t))
        sloped (1 / 3) (fun a b => ⌈(b - a) / (1 / 3)⌉₊) (some [1 / 4, 1 / 2]) halves.points
        #v[1] = some s ∧
      ∀ q ∈ strides,
        let back := reflectField halves.left halves.right sloped
        (ExactIn (fieldJacobian eliminationNumerics (some fun t _ => slope t) back) back q ↔
          (some fun (t : ℚ) (_ : Vector ℚ 1) => slope t) = none ∨
            slope q.stop = -slope (reflect halves.left halves.right q.stop)) ∧
        (ExactIn (fieldJacobian eliminationNumerics (some fun t _ => slope t) back) back q →
          QuickIn eliminationNumerics ⟨1 / 100, 50⟩
            (fieldJacobian eliminationNumerics (some fun t _ => slope t) back) back q)) :=
  exact_steps (N := eliminationNumerics) (A := slope) (g := fun _ => .replicate 1 1) (by decide +kernel)
    (by rw [eliminationNumerics_norm_zero]; norm_num)
    (fun _ b nonsingular => Linear.solve_solves nonsingular b) (fun _ _ => rfl) (.inr rfl)
    (by norm_num) (suffices_ceil (by norm_num)) halves
    (checkTimes_iff.mpr ⟨by decide +kernel, by decide +kernel, by decide +kernel⟩) #v[1]

/-- Growth at the rate one, integrated backwards. -/
abbrev decay : ℚ → Vector ℚ 1 → Vector ℚ 1 :=
  reflectField halves.left halves.right fun _ y => y

/-- The first step of a final-value problem for `u' = u`, with the Jacobian of
    the field: the matrix is nonsingular but not the derivative, and Newton's
    method uses up its iterations. -/
theorem given_jacobian_not_reflected :
    Affine (fun _ => .identity) (fun _ => 0) (fun (_ : ℚ) (y : Vector ℚ 1) => y) ∧
    ∃ s strides q,
      backwardRecorded eliminationNumerics
        (.backwardEuler ⟨1 / 1000000, 5⟩ (some fun _ _ => .identity)) (fun _ y => y) (1 / 2)
        (fun _ _ => 1) none halves.points #v[1] = some (s, strides) ∧
      q ∈ strides ∧
      ¬ExactIn (fieldJacobian eliminationNumerics (some fun _ _ => .identity) decay) decay q ∧
      (BackwardEuler.residualJacobian
        (fieldJacobian eliminationNumerics (some fun _ _ => .identity) decay) q.start q.length
        (BackwardEuler.guess decay q.start q.state.1 q.length)).Nonsingular ∧
      (BackwardEuler.step ⟨1 / 1000000, 5⟩ eliminationNumerics.norm eliminationNumerics.solve
        (fieldJacobian eliminationNumerics (some fun _ _ => .identity) decay) decay q.start
        q.state.1 q.length).iterations = 5 := by
  have affine : Affine (fun _ => .identity) (fun _ => 0) (fun (_ : ℚ) (y : Vector ℚ 1) => y) := by
    intro t y
    refine Vectors.ext_get fun i => ?_
    obtain rfl : i = 0 := Subsingleton.elim _ _
    simp [Matrix.identity, Matrix.ofFn]
  have first : (backwardRecorded eliminationNumerics
      (.backwardEuler ⟨1 / 1000000, 5⟩ (some fun _ _ => .identity)) (fun _ y => y) (1 / 2)
      (fun _ _ => 1) none halves.points #v[1]).map (fun run => run.2.head?) =
        some (some ⟨0, (#v[1], 0), 1 / 2⟩) := by
    decide +kernel
  obtain ⟨⟨s, strides⟩, hs, hhead⟩ := Option.map_eq_some_iff.mp first
  refine ⟨affine, s, strides, ⟨0, (#v[1], 0), 1 / 2⟩, hs, List.mem_of_head? hhead, ?_, ?_, ?_⟩
  · rw [exactIn_given (affine.reflect halves.left halves.right) (by norm_num)]
    decide +kernel
  · have half : BackwardEuler.residualJacobian
        (fieldJacobian eliminationNumerics (some fun _ _ => .identity) decay) 0 (1 / 2)
        (BackwardEuler.guess decay 0 #v[1] (1 / 2)) = .ofFn fun _ _ => 1 / 2 := by
      decide +kernel
    rw [half]
    intro x y h
    refine Vectors.ext_get fun i => ?_
    obtain rfl : i = 0 := Subsingleton.elim _ _
    have entry := congrArg (fun v : Vector ℚ 1 => v.get 0) h
    simpa [Matrix.ofFn] using entry
  · decide +kernel

end Solve

end JetForm
