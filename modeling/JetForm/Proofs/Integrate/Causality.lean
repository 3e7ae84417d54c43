import JetForm.Proofs.Integrate.Solution

/-! # What the state at a time depends on

    A step from `t` of size `h` evaluates the field at `t + c h` for the stage
    fractions `c` of the method.  Two fields that agree before a time `p` give
    the same step if all of these times lie before `p`.  Stages strictly inside
    the step do, even if the step ends at `p`; a stage at the end of the step,
    as in Heun's, the classical and the backward Euler method, does not, so
    these see what the field becomes at a breakpoint where a piece ends. -/

namespace JetForm

/-! ## Steps -/

section

variable {K V : Type} [Zero K] [Add K] [Mul K] [BEq K] [Add V] [SMul K V]
  {f g : K → V → V} {t h : K}

theorem Tableau.stageValues_congr {y : V} {stages : List (List K × K)}
    (same : ∀ stage ∈ stages, f (t + stage.2 * h) = g (t + stage.2 * h)) (ks : List V) :
    stageValues f t y h stages ks = stageValues g t y h stages ks := by
  induction stages generalizing ks with
  | nil => rfl
  | cons stage rest ih =>
    rw [stageValues, stageValues, same stage (by simp)]
    exact ih (fun later hlater => same later (List.mem_cons_of_mem _ hlater)) _

/-- An explicit step reads the field at its stage times only. -/
theorem Tableau.step_congr [Zero V] {tab : Tableau K}
    (same : ∀ c ∈ tab.c, f (t + c * h) = g (t + c * h)) (y : V) :
    tab.step f t y h = tab.step g t y h := by
  have stages : ∀ stage ∈ tab.a.zip tab.c, f (t + stage.2 * h) = g (t + stage.2 * h) :=
    fun stage hstage => same stage.2 (List.of_mem_zip hstage).2
  rw [Tableau.step, Tableau.step, stageValues_congr stages]

end

/-- A backward Euler step reads the field at its two ends only. -/
theorem BackwardEuler.step_congr {K : Type} {n : Nat} [Zero K] [One K] [Neg K] [Add K] [Sub K]
    [Mul K] [LT K] [DecidableLT K] {f g : K → Vector K n → Vector K n}
    {J J' : K → Vector K n → Matrix K n n} {t h : K} (start : f t = g t)
    (stop : f (t + h) = g (t + h)) (jacobian : J (t + h) = J' (t + h))
    (settings : NewtonSettings K) (norm : Vector K n → K)
    (solve : Matrix K n n → Vector K n → Vector K n) (y : Vector K n) :
    BackwardEuler.step settings norm solve J f t y h =
      BackwardEuler.step settings norm solve J' g t y h := by
  have residuals : residual f t y h = residual g t y h := by
    funext z
    rw [residual, residual, stop]
  have jacobians : residualJacobian J t h = residualJacobian J' t h := by
    funext z
    rw [residualJacobian, residualJacobian, jacobian]
  rw [BackwardEuler.step, BackwardEuler.step, residuals, jacobians, guess, guess, start]

namespace Method

section

variable {K : Type} {n : Nat}

/-- Where in a step the field is evaluated, as fractions of the step. -/
def fractions [Zero K] [One K] : Method K n → List K
  | .explicit _ tableau => tableau.c
  | .backwardEuler .. => [0, 1]

variable [Field K] [LinearOrder K] {f g : K → Vector K n → Vector K n}

/-- A step reads the field at the fractions of the method only. -/
theorem advance_congr (N : Numerics K) {method : Method K n} {t h : K}
    (same : ∀ c ∈ method.fractions, f (t + c * h) = g (t + c * h)) (y : Vector K n × Nat) :
    method.advance N f t y h = method.advance N g t y h := by
  cases method with
  | explicit name tableau =>
    simp only [advance]
    rw [Tableau.step_congr same]
  | backwardEuler newton jacobian =>
    have start : f t = g t := by simpa using same 0 (by simp [fractions])
    have stop : f (t + h) = g (t + h) := by simpa using same 1 (by simp [fractions])
    have fieldJacobian :
        (jacobian.getD fun t z => Difference.jacobian N.eps (f t) z) (t + h) =
          (jacobian.getD fun t z => Difference.jacobian N.eps (g t) z) (t + h) := by
      cases jacobian with
      | none => rw [Option.getD_none, Option.getD_none, stop]
      | some jacobian => rw [Option.getD_some, Option.getD_some]
    have last := BackwardEuler.step_congr start stop fieldJacobian newton N.norm N.solve y.1
    simp only [advance, last]

end

variable {K : Type} {n : Nat} [Field K] [LinearOrder K] [IsStrictOrderedRing K]

/-- Is the field evaluated before `p` only, in all steps of at most the given
    size that end at or before `q`? -/
def StaysBefore (method : Method K n) (size q p : K) : Prop :=
  q ≤ p ∧ ∀ c ∈ method.fractions, c < 1 ∨ q + (c - 1) * size < p

/-- Fields that agree before `p` give the same steps. -/
theorem StaysBefore.agreeUntil {method : Method K n} {size p q : K}
    (h : method.StaysBefore size q p) {f g : K → Vector K n → Vector K n}
    (same : ∀ t < p, f t = g t) (N : Numerics K) :
    Steps.AgreeUntil size q (method.advance N f) (method.advance N g) := by
  intro t y step hpos hsize hend
  refine advance_congr N (fun c hc => same _ ?_) y
  by_cases inside : c < 1
  · have shorter : c * step < 1 * step := mul_lt_mul_of_pos_right inside hpos
    linarith [h.1]
  · -- The stage lies `(c - 1) * step` behind the end of the step.
    have behind : q + (c - 1) * size < p := (h.2 c hc).resolve_left inside
    have bound : (c - 1) * step ≤ (c - 1) * size :=
      mul_le_mul_of_nonneg_left hsize (sub_nonneg.mpr (not_lt.mp inside))
    linarith

end Method

/-! ## Solutions -/

namespace Steps

/-- Choosing rows and cutting them off at a time can be done in either order. -/
theorem select_filter {K σ : Type} [LinearOrder K] (requested : Option (List K)) (limit : K)
    (rows : List (K × σ)) :
    (select requested rows).filter (·.1 ≤ limit) =
      select requested (rows.filter (·.1 ≤ limit)) := by
  cases requested with
  | none => rfl
  | some times => simp only [select, List.filter_filter, Bool.and_comm]

end Steps

namespace Solve

open Steps

variable {K : Type} {n : Nat} [Field K] [LinearOrder K] [IsStrictOrderedRing K]

/-- The states at output times up to `q` do not depend on the field from `p` on,
    if the method stays before `p` in steps that end at or before `q`. -/
theorem forward_causal [Finiteness K] {N : Numerics K} {method : Method K n} {size p q : K}
    {budget : K → K → Nat} (hsize : 0 < size) (enough : Suffices size budget) {d : Domain K}
    {requested : Option (List K)} (accepted : checkTimes d requested = .ok ())
    {f g : K → Vector K n → Vector K n} (same : ∀ t < p, f t = g t)
    (before : method.StaysBefore size q p) (y : Vector K n) :
    ∃ s s', forward N method f size budget requested d.points y = some s ∧
      forward N method g size budget requested d.points y = some s' ∧
      s.rows.filter (·.1 ≤ q) = s'.rows.filter (·.1 ≤ q) := by
  have sorted := (checkTimes_iff.mp accepted).sorted
  have increasing := d.points_increasing
  obtain ⟨rest, hpoints⟩ := List.head?_eq_some_iff.mp (List.head?_eq_some_head d.points_ne_nil)
  rw [hpoints] at increasing ⊢
  obtain ⟨saved, hsaved, hrows, -⟩ := onDomain_saves (method.advance N f) hsize enough
    requested sorted increasing (y, 0)
  obtain ⟨saved', hsaved', hrows', -⟩ := onDomain_saves (method.advance N g) hsize enough
    requested sorted increasing (y, 0)
  obtain ⟨_, _, heq, heq', agree⟩ := history_congr hsize enough (before.agreeUntil same N)
    (stops_sorted sorted increasing) (y, 0)
  obtain rfl := Option.some.inj (hsaved.symm.trans heq)
  obtain rfl := Option.some.inj (hsaved'.symm.trans heq')
  refine ⟨_, _, by rw [forward, hrows]; rfl, by rw [forward, hrows']; rfl, ?_⟩
  simp only [select_filter, List.filter_map, List.filter_cons, Function.comp_def, agree]

/-! ## A jump at a breakpoint -/

/-- A rate that jumps from one to `after` in the middle of the unit interval. -/
def jump (after t : ℚ) (_ : Vector ℚ 1) : Vector ℚ 1 :=
  if t < 1 / 2 then #v[1] else #v[after]

theorem jump_before (after after' : ℚ) : ∀ t < 1 / 2, jump after t = jump after' t := by
  intro t ht
  funext y
  rw [jump, jump, if_pos ht, if_pos ht]

/-- The midpoint rule does not see the jump in the step that ends there. -/
theorem forward_causal_midpoint :
    ∃ s s', forward rationalNumerics .midpoint (jump 1) (1 / 4)
        (fun a b => ⌈(b - a) / (1 / 4)⌉₊) none halves.points #v[0] = some s ∧
      forward rationalNumerics .midpoint (jump 3) (1 / 4)
        (fun a b => ⌈(b - a) / (1 / 4)⌉₊) none halves.points #v[0] = some s' ∧
      s.rows.filter (·.1 ≤ 1 / 2) = s'.rows.filter (·.1 ≤ 1 / 2) := by
  have before : Method.StaysBefore (n := 1) .midpoint (1 / 4 : ℚ) (1 / 2) (1 / 2) := by
    refine ⟨le_rfl, fun c hc => .inl ?_⟩
    simp only [Method.midpoint, Method.fractions, Tableau.midpoint, Tableau.half, Tableau.two,
      List.mem_cons, List.not_mem_nil, or_false] at hc
    rcases hc with rfl | rfl <;> norm_num
  exact forward_causal (by norm_num) (suffices_ceil (by norm_num)) (checkTimes_iff.mpr
    ⟨.nil, by simp, by simp⟩) (jump_before 1 3) before #v[0]

/-- Heun's method does: its last stage is evaluated where the step ends, and
    there the fields differ already. -/
theorem heun_sees_jump :
    (∀ t < 1 / 2, jump 1 t = jump 3 t) ∧
    (forward rationalNumerics .heun (jump 1) (1 / 2) (fun _ _ => 1) none halves.points
      #v[0]).map (fun s => s.rows.filter (·.1 ≤ 1 / 2)) = some [(0, #v[0]), (1 / 2, #v[1 / 2])] ∧
    (forward rationalNumerics .heun (jump 3) (1 / 2) (fun _ _ => 1) none halves.points
      #v[0]).map (fun s => s.rows.filter (·.1 ≤ 1 / 2)) = some [(0, #v[0]), (1 / 2, #v[1])] :=
  ⟨jump_before 1 3, by decide +kernel, by decide +kernel⟩

end Solve

end JetForm
