import Mathlib.Algebra.Polynomial.Taylor
import Mathlib.Analysis.Calculus.Deriv.Polynomial
import Mathlib.MeasureTheory.Integral.IntervalIntegral.FundThmCalculus
import Mathlib.Tactic.FieldSimp
import Mathlib.Tactic.IntervalCases
import Mathlib.Topology.Algebra.Polynomial
import JetForm.Integrate.Method
import JetForm.Proofs.Integrate.RungeKutta
import JetForm.Proofs.Numerics.Vectors

/-! # The order of the named methods

    Two kinds of equation show which order a method has.

    * **Linear equations.**  On `y' = L y` every stage is a combination of the
      powers of `h L`, applied to `L y`.  The coefficients come from the rows of
      the tableau by a recursion, `linearWeight`, so a step ends at a polynomial
      in `h L` that is to agree with the exponential series.
    * **Quadratures.**  On `y' = q t` the stages are values of `q`, and a step is
      the quadrature formula with the final weights and the stage times.  It is
      exact for a polynomial if it is exact for the powers below its degree.

    For both kinds the order is a matter of a few equations between the weights
    of a tableau, `HasOrder`.  The named methods satisfy as many of them as they
    declare. -/

namespace JetForm

open Polynomial

/-! ## Integrals of polynomials -/

namespace Quadrature

section

variable {K : Type} [Field K]

/-- A polynomial with the given derivative. -/
noncomputable def antiderivative (q : K[X]) : K[X] :=
  q.sum fun k c => monomial (k + 1) (c / (k + 1 : Nat))

/-- The integral of a polynomial over `[a, b]`. -/
noncomputable def integral (q : K[X]) (a b : K) : K :=
  (antiderivative q).eval b - (antiderivative q).eval a

theorem integral_monomial (k : Nat) (c a b : K) :
    integral (monomial k c) a b = c / (k + 1 : Nat) * (b ^ (k + 1) - a ^ (k + 1)) := by
  have value : antiderivative (monomial k c) = monomial (k + 1) (c / (k + 1 : Nat)) :=
    sum_monomial_index c _ (by simp)
  rw [integral, value, eval_monomial, eval_monomial, mul_sub]

variable [CharZero K]

theorem derivative_antiderivative (q : K[X]) : derivative (antiderivative q) = q := by
  have term : ∀ (k : Nat) (c : K),
      derivative (monomial (k + 1) (c / (k + 1 : Nat))) = monomial k c := by
    intro k c
    rw [derivative_monomial, div_mul_cancel₀ c (Nat.cast_ne_zero.mpr k.succ_ne_zero)]
    rfl
  rw [antiderivative, Polynomial.sum, derivative_sum]
  simp only [term]
  exact q.sum_monomial_eq

/-- Polynomials with one derivative grow alike. -/
theorem eval_sub_eval {P Q : K[X]} (same : derivative P = derivative Q) (a b : K) :
    P.eval b - P.eval a = Q.eval b - Q.eval a := by
  have flat : derivative (P - Q) = 0 := by rw [derivative_sub, same, sub_self]
  obtain ⟨c, hc⟩ := natDegree_eq_zero.mp (derivative_eq_zero.mp flat)
  have value : ∀ x, P.eval x = Q.eval x + c := by
    intro x
    rw [← eval_C (a := c) (x := x), hc, eval_sub, add_sub_cancel]
  rw [value, value, add_sub_add_right_eq_sub]

/-- Moving a polynomial moves its integral. -/
theorem integral_add (q : K[X]) (t h : K) : integral q t (t + h) = integral (taylor t q) 0 h := by
  have same : derivative (taylor t (antiderivative q)) =
      derivative (antiderivative (taylor t q)) := by
    rw [derivative_antiderivative, taylor_apply, derivative_comp, derivative_antiderivative,
      taylor_apply]
    simp
  rw [integral, integral, ← eval_sub_eval same, taylor_eval, taylor_eval, zero_add, add_comm h t]

/-- From zero on, the integral is the sum of those of the powers. -/
theorem integral_zero {q : K[X]} {n : Nat} (low : q.natDegree < n) (h : K) :
    integral q 0 h = ∑ k ∈ Finset.range n, q.coeff k * (h ^ (k + 1) / (k + 1 : Nat)) := by
  have value : ∀ x, (antiderivative q).eval x =
      ∑ k ∈ Finset.range n, q.coeff k * (x ^ (k + 1) / (k + 1 : Nat)) := by
    intro x
    rw [antiderivative, q.sum_over_range' (by simp) n low, eval_finsetSum]
    refine Finset.sum_congr rfl fun k _ => ?_
    rw [eval_monomial]
    ring
  rw [integral, value, value]
  simp

end

/-- Over the real numbers this is the integral of analysis. -/
theorem integral_eq_intervalIntegral (q : ℝ[X]) (a b : ℝ) :
    integral q a b = ∫ x in a..b, q.eval x := by
  have slope : ∀ x, HasDerivAt (fun x => (antiderivative q).eval x) (q.eval x) x := by
    intro x
    have := (antiderivative q).hasDerivAt x
    rwa [derivative_antiderivative] at this
  exact (intervalIntegral.integral_eq_sub_of_hasDerivAt (fun x _ => slope x)
    (q.continuous.intervalIntegrable a b)).symm

end Quadrature

/-! ## Linear fields and quadratures -/

namespace Tableau

open Finset

section

variable {K V : Type} [Field K] [AddCommGroup V] [Module K V] {tab : Tableau K} {t h : K} {y : V}

/-- On a linear field `L` stage `i` is a combination of the powers of `h L`, applied to `L y`.
    This is the coefficient of power `k`. -/
def linearWeight (tab : Tableau K) : Nat → Nat → K
  | 0, _ => 1
  | k + 1, i => ∑ j : Fin i, (tab.a.getD i []).getD j 0 * linearWeight tab k j

/-- Each stage takes the combinations of the stages before it one power further. -/
theorem stage_linear (L : Module.End K V) {i n : Nat} (below : i < n) :
    tab.stage (fun _ y => L y) t y h i =
      ∑ k ∈ range n, (h ^ k * tab.linearWeight k i) • (L ^ (k + 1)) y := by
  induction i using Nat.strong_induction_on generalizing n with
  | _ i ih =>
    obtain ⟨n, rfl⟩ := Nat.exists_eq_add_one_of_ne_zero (Nat.ne_zero_of_lt below)
    have earlier : ∀ j : Fin i, tab.stage (fun _ y => L y) t y h j =
        ∑ k ∈ range n, (h ^ k * tab.linearWeight k j) • (L ^ (k + 1)) y := fun j =>
      ih j j.2 (Nat.lt_of_lt_of_le j.2 (Nat.le_of_lt_succ below))
    -- one power more, with the weights of row `i`
    have further : ∀ k, (∑ j : Fin i, h • (tab.a.getD i []).getD j 0 •
        (h ^ k * tab.linearWeight k j) • L ((L ^ (k + 1)) y)) =
          (h ^ (k + 1) * tab.linearWeight (k + 1) i) • (L ^ (k + 1 + 1)) y := by
      intro k
      rw [linearWeight, Finset.mul_sum, Finset.sum_smul]
      refine Finset.sum_congr rfl fun j _ => ?_
      rw [pow_succ' L (k + 1), Module.End.mul_apply, smul_smul, smul_smul]
      congr 1
      ring
    -- power zero comes from the state itself, the others from the stages before
    rw [stage_eq, stagePoint, sum_range_succ']
    simp only [earlier, map_add, map_smul, map_sum, Finset.smul_sum]
    rw [sum_comm, add_comm]
    simp only [further]
    simp [linearWeight]

/-- The weights of a method of order `p` with as many stages: its combinations are those of the
    exponential series, and its quadrature is exact for the powers below `p`. -/
structure HasOrder (tab : Tableau K) (p : Nat) : Prop where
  shaped : tab.Shaped
  stages : tab.stages = p
  linear : ∀ k < p,
    ∑ i : Fin p, tab.b.getD i 0 * tab.linearWeight k i = 1 / ((k + 1).factorial : K)
  quadrature : ∀ k < p,
    ∑ i : Fin p, tab.b.getD i 0 * tab.c.getD i 0 ^ k = 1 / ((k + 1 : Nat) : K)

variable [DecidableEq K]

/-- A step ends at the weighted sum of the stages of the textbook. -/
theorem step_eq_sum (shaped : tab.Shaped) (f : K → V → V) :
    tab.step f t y h = y + h • ∑ i : Fin tab.stages, tab.b.getD i 0 • tab.stage f t y h i := by
  have rows : (tab.a.zip tab.c).length = tab.stages := by simp [shaped.rows, shaped.times]
  have recorded := stageValuesM_recorded (f := f) (t := t) (h := h) (y := y) shaped (i := 0)
    (List.drop_zero (l := tab.a.zip tab.c)) []
  have stages : stageValues f t y h (tab.a.zip tab.c) [] =
      (List.range tab.stages).map (tab.stage f t y h) := by
    rw [← fst_stageValuesM_recorded f t y h _ _ []]
    rw [List.range_zero, List.map_nil] at recorded
    rw [recorded, rows, Nat.zero_add]
  have sum : addWeighted id 0 tab.b ((List.range tab.stages).map (tab.stage f t y h)) =
      0 + ∑ i : Fin tab.stages, id (tab.b.getD i 0) • tab.stage f t y h i :=
    addWeighted_range rfl 0 rfl _
  rw [step, stages, sum, zero_add]
  rfl

namespace HasOrder

variable {p : Nat}

/-- On a linear field a step is the exponential series up to power `p`. -/
theorem step_linear (order : tab.HasOrder p) (L : Module.End K V) :
    tab.step (fun _ y => L y) t y h =
      ∑ k ∈ range (p + 1), (1 / (k.factorial : K)) • ((h • L) ^ k) y := by
  obtain ⟨shaped, rfl, linear, -⟩ := order
  -- power `k` of all stages together is term `k + 1` of the series
  have power : ∀ k ∈ range tab.stages, h • ∑ i : Fin tab.stages, tab.b.getD i 0 •
      (h ^ k * tab.linearWeight k i) • (L ^ (k + 1)) y =
        (1 / ((k + 1).factorial : K)) • ((h • L) ^ (k + 1)) y := by
    intro k hk
    have scaled : (h • L) ^ (k + 1) = h ^ (k + 1) • L ^ (k + 1) := smul_pow h L (k + 1)
    rw [← linear k (mem_range.mp hk), scaled, LinearMap.smul_apply, Finset.sum_smul,
      Finset.smul_sum]
    refine sum_congr rfl fun i _ => ?_
    simp only [smul_smul]
    congr 1
    ring
  rw [step_eq_sum shaped, sum_range_succ', ← sum_congr rfl power]
  simp only [stage_linear L (Fin.is_lt _), Finset.smul_sum (s := range tab.stages)]
  rw [sum_comm, Finset.smul_sum]
  simp [add_comm]

/-- On a field that depends on the time alone a step is a quadrature. -/
theorem step_quadrature (order : tab.HasOrder p) (v : K → V) :
    tab.step (fun t _ => v t) t y h =
      y + h • ∑ i : Fin p, tab.b.getD i 0 • v (t + tab.c.getD i 0 * h) := by
  obtain ⟨shaped, rfl, -, -⟩ := order
  have stages : ∀ i, tab.stage (fun t _ => v t) t y h i = v (t + tab.c.getD i 0 * h) :=
    fun i => stage_eq i
  rw [step_eq_sum shaped]
  simp only [stages]

/-- The quadrature is exact for a polynomial of degree below `p`. -/
theorem quadrature_eq_integral [CharZero K] (order : tab.HasOrder p) {q : K[X]}
    (low : q.degree < p) (t h : K) :
    h * ∑ i : Fin p, tab.b.getD i 0 * q.eval (t + tab.c.getD i 0 * h) =
      Quadrature.integral q t (t + h) := by
  by_cases zero : q = 0
  · subst zero
    simp [Quadrature.integral, Quadrature.antiderivative]
  · -- both sides are sums over the coefficients of the polynomial around `t`
    have low : (taylor t q).natDegree < p := by
      rwa [natDegree_taylor, natDegree_lt_iff_degree_lt zero]
    have value : ∀ x, q.eval (t + x) = ∑ k ∈ range p, (taylor t q).coeff k * x ^ k := by
      intro x
      rw [add_comm, ← taylor_eval, eval_eq_sum_range' low]
    have power : ∀ k ∈ range p, h * ∑ i : Fin p, tab.b.getD i 0 *
        ((taylor t q).coeff k * (tab.c.getD i 0 * h) ^ k) =
          (taylor t q).coeff k * (h ^ (k + 1) / (k + 1 : Nat)) := by
      intro k hk
      rw [div_eq_mul_one_div, ← order.quadrature k (mem_range.mp hk), Finset.mul_sum,
        Finset.mul_sum, Finset.mul_sum]
      exact sum_congr rfl fun i _ => by ring
    rw [Quadrature.integral_add, Quadrature.integral_zero low, ← sum_congr rfl power]
    simp only [value, Finset.mul_sum (s := range p)]
    rw [sum_comm, Finset.mul_sum]

end HasOrder

end

/-! ## The named methods -/

section

variable {K : Type} [Field K]

theorem linearWeight_midpoint (k : Nat) : (midpoint : Tableau K).linearWeight (k + 1) 0 = 0 ∧
    (midpoint : Tableau K).linearWeight (k + 1) 1 = half * midpoint.linearWeight k 0 := by
  simp [linearWeight, midpoint]

theorem linearWeight_heun (k : Nat) : (heun : Tableau K).linearWeight (k + 1) 0 = 0 ∧
    (heun : Tableau K).linearWeight (k + 1) 1 = heun.linearWeight k 0 := by
  simp [linearWeight, heun]

/-- Each stage of the classical method builds on the one before it alone. -/
theorem linearWeight_classic (k : Nat) : (classic : Tableau K).linearWeight (k + 1) 0 = 0 ∧
    (classic : Tableau K).linearWeight (k + 1) 1 = half * classic.linearWeight k 0 ∧
    (classic : Tableau K).linearWeight (k + 1) 2 = half * classic.linearWeight k 1 ∧
    (classic : Tableau K).linearWeight (k + 1) 3 = classic.linearWeight k 2 := by
  simp [linearWeight, classic, Fin.sum_univ_succ]

variable [CharZero K]

theorem hasOrder_euler : (euler : Tableau K).HasOrder 1 where
  shaped := ⟨rfl, rfl, by simp [euler]⟩
  stages := rfl
  linear k below := by
    interval_cases k
    simp [euler, linearWeight]
  quadrature k below := by
    interval_cases k
    simp [euler]

theorem hasOrder_midpoint : (midpoint : Tableau K).HasOrder 2 where
  shaped := ⟨rfl, rfl, fun i h => by simp [midpoint] at h; interval_cases i <;> rfl⟩
  stages := rfl
  linear k below := by
    rw [Fin.sum_univ_two]
    show 0 * midpoint.linearWeight k 0 + 1 * midpoint.linearWeight k 1 = _
    interval_cases k
    · simp [linearWeight]
    · simp only [linearWeight_midpoint]
      norm_num [linearWeight, half, two]
  quadrature k below := by
    rw [Fin.sum_univ_two]
    show 0 * 0 ^ k + 1 * half ^ k = _
    interval_cases k <;> norm_num [half, two]

theorem hasOrder_heun : (heun : Tableau K).HasOrder 2 where
  shaped := ⟨rfl, rfl, fun i h => by simp [heun] at h; interval_cases i <;> rfl⟩
  stages := rfl
  linear k below := by
    rw [Fin.sum_univ_two]
    show half * heun.linearWeight k 0 + half * heun.linearWeight k 1 = _
    interval_cases k
    · norm_num [linearWeight, half, two]
    · simp only [linearWeight_heun]
      norm_num [linearWeight, half, two]
  quadrature k below := by
    rw [Fin.sum_univ_two]
    show half * 0 ^ k + half * 1 ^ k = _
    interval_cases k <;> norm_num [half, two]

theorem hasOrder_classic : (classic : Tableau K).HasOrder 4 where
  shaped := ⟨rfl, rfl, fun i h => by simp [classic] at h; interval_cases i <;> rfl⟩
  stages := rfl
  linear k below := by
    rw [Fin.sum_univ_four]
    show sixth * classic.linearWeight k 0 + third * classic.linearWeight k 1 +
      third * classic.linearWeight k 2 + sixth * classic.linearWeight k 3 = _
    interval_cases k
    · norm_num [linearWeight, third, sixth, two]
    all_goals
      simp only [linearWeight_classic]
      norm_num [linearWeight, half, third, sixth, two, Nat.factorial]
  quadrature k below := by
    rw [Fin.sum_univ_four]
    show sixth * 0 ^ k + third * half ^ k + third * half ^ k + sixth * 1 ^ k = _
    interval_cases k <;> norm_num [half, third, sixth, two]

end

end Tableau

/-! ## Systems -/

namespace Method

open Finset

section

variable {K : Type} [Field K] [LinearOrder K] [IsStrictOrderedRing K] {n : Nat}

/-- Attaining an order: on linear systems a step is the exponential series up to that power, and
    on quadratures of polynomials of lower degree it is exact. -/
structure Attains (N : Numerics K) (m : Method K n) (p : Nat) : Prop where
  linear : ∀ (A : Matrix K n n) (t : K) (y : Vector K n) (failures : Nat) (h : K),
    m.advance N (fun _ y => A.apply y) t (y, failures) h =
      (∑ k ∈ range (p + 1), (1 / (k.factorial : K)) • (fun v => h • A.apply v)^[k] y, failures)
  quadrature : ∀ (q : Fin n → K[X]), (∀ i, (q i).degree < p) →
    ∀ (t : K) (y : Vector K n) (failures : Nat) (h : K),
      m.advance N (fun t _ => Vector.ofFn fun i => (q i).eval t) t (y, failures) h =
        (y + Vector.ofFn fun i => Quadrature.integral (q i) t (t + h), failures)

theorem attains_of_hasOrder (N : Numerics K) (name : String) {tab : Tableau K} {p : Nat}
    (order : tab.HasOrder p) : Attains N (.explicit name tab : Method K n) p where
  linear A t y failures h := by
    have iterate : ∀ k, ((h • A.linearMap) ^ k) y = (fun v => h • A.apply v)^[k] y :=
      fun k => Module.End.pow_apply _ k y
    have step : tab.step (fun _ y => A.apply y) t y h = _ := order.step_linear A.linearMap
    simp only [iterate] at step
    exact Prod.ext step rfl
  quadrature q low t y failures h := by
    refine Prod.ext ?_ rfl
    refine (order.step_quadrature fun t => Vector.ofFn fun i => (q i).eval t).trans ?_
    refine Vectors.ext_get fun i => ?_
    have exact := order.quadrature_eq_integral (low i) t h
    simp [Vectors.get_sum, ← exact]

/-- **The named explicit methods have the orders that they declare.**  On every linear system a
    step is the exponential series of the matrix, cut off after the power that is the order.  On
    every system of quadratures of polynomials of lower degree it adds the integrals. -/
theorem named_attain_order (N : Numerics K) {m : Method K n}
    (named : m ∈ [forwardEuler, midpoint, heun, classic]) :
    ∃ p : Nat, m.order = some (p : Int) ∧ m.Attains N p := by
  simp only [List.mem_cons, List.not_mem_nil, or_false] at named
  obtain rfl | rfl | rfl | rfl := named
  · exact ⟨1, rfl, attains_of_hasOrder N _ Tableau.hasOrder_euler⟩
  · exact ⟨2, rfl, attains_of_hasOrder N _ Tableau.hasOrder_midpoint⟩
  · exact ⟨2, rfl, attains_of_hasOrder N _ Tableau.hasOrder_heun⟩
  · exact ⟨4, rfl, attains_of_hasOrder N _ Tableau.hasOrder_classic⟩

end

/-- A rotation by one radian, where the entries are the cosine and the sine up to power four,
    and the integrals of a cube. -/
theorem classic_attains_order :
    (classic : Method ℚ 2) ∈ [forwardEuler, midpoint, heun, classic] ∧
      (monomial 3 1 : ℚ[X]).degree < 4 ∧
      ∀ N : Numerics ℚ,
        (classic : Method ℚ 2).advance N (fun _ y => Matrix.apply #v[#v[0, 1], #v[-1, 0]] y) 0
            (#v[1, 0], 0) 1 = (#v[13 / 24, -5 / 6], 0) ∧
          (classic : Method ℚ 2).advance N
              (fun t _ => Vector.ofFn fun _ => (monomial 3 (1 : ℚ)).eval t) 1 (#v[0, 1], 0) 1 =
            (#v[15 / 4, 19 / 4], 0) := by
  have named : (classic : Method ℚ 2) ∈ [forwardEuler, midpoint, heun, classic] := by simp
  have low : (monomial 3 1 : ℚ[X]).degree < 4 := by
    rw [degree_monomial 3 one_ne_zero]
    decide
  refine ⟨named, low, fun N => ?_⟩
  obtain ⟨p, declared, attains⟩ := named_attain_order N named
  obtain rfl : 4 = p := Int.ofNat.inj (Option.some.inj declared)
  refine ⟨(attains.linear _ 0 _ 0 1).trans (by decide +kernel),
    (attains.quadrature (fun _ => monomial 3 1) (fun _ => low) 1 _ 0 1).trans ?_⟩
  rw [Quadrature.integral_monomial]
  decide +kernel

end Method

end JetForm
