import Mathlib.Algebra.Order.Field.Basic
import Mathlib.Tactic.LinearCombination
import Mathlib.Tactic.Ring
import JetForm.Proofs.Numerics.Vectors

/-! # Elimination solves nonsingular systems

    Over an ordered field `Linear.solve` finds the solution of every system
    whose matrix is nonsingular.  The invariant of the elimination is that the
    rows have no common zero but the origin.  It keeps the pivots from being
    zero, for otherwise the first unknown would be free, and it is handed down
    to the smaller system, whose zeros extend to zeros of the whole one. -/

namespace JetForm

namespace Linear

/-! ## Rows -/

section

variable {K : Type} [Field K]

/-- The left-hand side of an equation. -/
def dot (coefficients xs : List K) : K :=
  (List.zipWith (· * ·) coefficients xs).sum

/-- Is the equation satisfied? -/
def Row.Holds (r : Row K) (xs : List K) : Prop :=
  dot r.coefficients xs = r.value

/-- The only common zero of the left-hand sides is the origin. -/
def Independent (n : Nat) (rows : List (Row K)) : Prop :=
  ∀ xs : List K, xs.length = n → (∀ r ∈ rows, dot r.coefficients xs = 0) → ∀ x ∈ xs, x = 0

theorem dot_cons (coefficients : List K) (x : K) (xs : List K) :
    dot coefficients (x :: xs) = coefficients.headD 0 * x + dot coefficients.tail xs := by
  cases coefficients <;> simp [dot]

theorem dot_zeros (coefficients : List K) (n : Nat) : dot coefficients (List.replicate n 0) = 0 := by
  induction n generalizing coefficients with
  | zero => simp [dot]
  | succ n ih => rw [List.replicate_succ, dot_cons, ih, mul_zero, zero_add]

/-- A combination of two rows. -/
theorem dot_combine (factor : K) {as ps : List K} (hlength : as.length = ps.length)
    (xs : List K) :
    dot (List.zipWith (fun a p => a - factor * p) as ps) xs = dot as xs - factor * dot ps xs := by
  induction as generalizing ps xs with
  | nil =>
    obtain rfl : ps = [] := List.length_eq_zero_iff.mp hlength.symm
    simp [dot]
  | cons a as ih =>
    obtain ⟨p, ps, rfl⟩ := List.exists_cons_of_length_eq_add_one hlength.symm
    cases xs with
    | nil => simp [dot]
    | cons x xs =>
      rw [List.zipWith_cons_cons, dot_cons, dot_cons, dot_cons, List.tail_cons, List.tail_cons,
        List.tail_cons, ih (by simpa using hlength), List.headD_cons, List.headD_cons,
        List.headD_cons]
      ring

/-- The value of the first unknown solves the pivot row. -/
theorem substitute_eq (pivot : Row K) (xs : List K) :
    substitute pivot xs = (pivot.value - dot pivot.coefficients.tail xs) / pivot.lead := by
  have rest : ∀ (as xs : List K) (v : K),
      (List.zip as xs).foldl (fun rest p => rest - p.1 * p.2) v = v - dot as xs := by
    intro as
    induction as with
    | nil => simp [dot]
    | cons a as ih =>
      intro xs v
      cases xs with
      | nil => simp [dot]
      | cons x xs =>
        rw [List.zip_cons_cons, List.foldl_cons, ih, dot_cons, List.headD_cons, List.tail_cons]
        ring
  exact congrArg (· / pivot.lead) (rest _ _ _)

/-- The pivot row gives the first unknown. -/
theorem substitute_holds (pivot : Row K) (hlead : pivot.lead ≠ 0) (xs : List K) :
    pivot.Holds (substitute pivot xs :: xs) := by
  rw [Row.Holds, dot_cons, substitute_eq]
  change pivot.lead * _ + _ = _
  rw [mul_div_cancel₀ _ hlead]
  ring

end

/-! ## One elimination -/

section

variable {K : Type} [Field K] [LinearOrder K] {n : Nat} {pivot : Row K}

/-- The left-hand side of a row without the first unknown. -/
theorem dot_eliminate (hlead : pivot.lead ≠ 0) {r : Row K}
    (hlength : r.coefficients.length = pivot.coefficients.length) (xs : List K) :
    dot (eliminate pivot r).coefficients xs =
      dot r.coefficients.tail xs - r.lead / pivot.lead * dot pivot.coefficients.tail xs := by
  have factor : (pivot.lead == 0) = false := by simpa using hlead
  rw [eliminate, dot_combine _ (by simp [hlength])]
  simp [factor]

/-- A row holds if the pivot row and the row without the first unknown do. -/
theorem holds_of_eliminate (hlead : pivot.lead ≠ 0) {r : Row K}
    (hlength : r.coefficients.length = pivot.coefficients.length) {x : K} {xs : List K}
    (top : pivot.Holds (x :: xs)) (rest : (eliminate pivot r).Holds xs) : r.Holds (x :: xs) := by
  have factor : (pivot.lead == 0) = false := by simpa using hlead
  rw [Row.Holds, dot_cons] at top ⊢
  rw [Row.Holds, dot_eliminate hlead hlength, eliminate] at rest
  simp only [factor, Bool.false_eq_true, if_false] at rest
  change pivot.lead * x + _ = _ at top
  change r.lead * x + _ = _
  have share : r.lead / pivot.lead * pivot.lead = r.lead := div_mul_cancel₀ _ hlead
  linear_combination rest + r.lead / pivot.lead * top - x * share

/-- The rows that are left after an elimination are independent again. -/
theorem Independent.eliminate {rows others : List (Row K)} (independent : Independent (n + 1) rows)
    (perm : (pivot :: others).Perm rows) (hlead : pivot.lead ≠ 0)
    (hlength : ∀ r ∈ rows, r.coefficients.length = n + 1) :
    Independent n (others.map (Linear.eliminate pivot)) := by
  intro xs hxs zero
  -- A zero of the smaller system is the rest of a zero of the whole one.
  let origin : Row K → Row K := fun r => ⟨r.coefficients, 0⟩
  have hpivot := hlength pivot (perm.subset (by simp))
  have top : (origin pivot).Holds (substitute (origin pivot) xs :: xs) :=
    substitute_holds (origin pivot) hlead xs
  refine fun y hy => independent (substitute (origin pivot) xs :: xs) (by simp [hxs])
    (fun r hr => ?_) y (List.mem_cons_of_mem _ hy)
  rcases List.mem_cons.mp (perm.symm.subset hr) with rfl | hothers
  · exact top
  · have rest : (Linear.eliminate (origin pivot) (origin r)).Holds xs := by
      show dot (Linear.eliminate pivot r).coefficients xs = 0 - _ * 0
      rw [zero _ (List.mem_map_of_mem hothers), mul_zero, sub_zero]
    have same : (origin r).coefficients.length = (origin pivot).coefficients.length :=
      (hlength r hr).trans hpivot.symm
    have hlead' : (origin pivot).lead ≠ 0 := hlead
    exact holds_of_eliminate hlead' same top rest

end

/-! ## The whole elimination -/

section

variable {K : Type} [Field K] [LinearOrder K] [IsStrictOrderedRing K]

theorem magnitude_eq_abs (x : K) : magnitude x = |x| := by
  unfold magnitude
  split_ifs with h
  · exact (abs_of_neg h).symm
  · exact (abs_of_nonneg (not_lt.mp h)).symm

/-- The pivot is one of the rows, and no row has a larger first coefficient. -/
theorem takePivot_spec (r : Row K) (rest : List (Row K)) :
    ((takePivot r rest).1 :: (takePivot r rest).2).Perm (r :: rest) ∧
      ∀ s ∈ r :: rest, |s.lead| ≤ |(takePivot r rest).1.lead| := by
  induction rest generalizing r with
  | nil => simp [takePivot]
  | cons s rest ih =>
    obtain ⟨perm, largest⟩ := ih s
    simp only [takePivot, magnitude_eq_abs]
    split_ifs with h
    · refine ⟨?_, fun q hq => ?_⟩
      · exact (List.Perm.swap _ _ _).trans (perm.cons r)
      · rcases List.mem_cons.mp hq with rfl | hq
        · exact h.le
        · exact largest q hq
    · refine ⟨.refl _, fun q hq => ?_⟩
      rcases List.mem_cons.mp hq with rfl | hq
      · exact le_rfl
      · exact (largest q hq).trans (not_lt.mp h)

variable {n : Nat} {pivot : Row K}

/-- Independent rows do not all lack the first unknown. -/
theorem lead_ne_zero {rows : List (Row K)} (independent : Independent (n + 1) rows)
    (largest : ∀ s ∈ rows, |s.lead| ≤ |pivot.lead|) : pivot.lead ≠ 0 := by
  intro hzero
  have free : ∀ r ∈ rows, dot r.coefficients (1 :: List.replicate n 0) = 0 := by
    intro r hr
    have hlead : r.lead = 0 := by
      have h := largest r hr
      rw [hzero, abs_zero] at h
      exact abs_eq_zero.mp (le_antisymm h (abs_nonneg _))
    rw [Row.lead] at hlead
    rw [dot_cons, hlead, dot_zeros, zero_mul, zero_add]
  exact one_ne_zero (independent _ (by simp) free 1 (by simp))

/-- As many independent rows as unknowns are all satisfied. -/
theorem solveRows_solves {rows : List (Row K)} (square : rows.length = n)
    (hlength : ∀ r ∈ rows, r.coefficients.length = n) (independent : Independent n rows) :
    (solveRows n rows).length = n ∧ ∀ r ∈ rows, r.Holds (solveRows n rows) := by
  induction n generalizing rows with
  | zero =>
    obtain rfl := List.length_eq_zero_iff.mp square
    simp [solveRows]
  | succ n ih =>
    -- some row has the largest leading coefficient, and it is taken first
    obtain ⟨r, rest, rfl⟩ := List.exists_cons_of_length_eq_add_one square
    obtain ⟨perm, largest⟩ := takePivot_spec r rest
    rw [solveRows]
    generalize takePivot r rest = taken at perm largest ⊢
    obtain ⟨pivot, others⟩ := taken
    have hlead := lead_ne_zero independent largest
    have hpivot := hlength pivot (perm.subset (by simp))
    have square' : (others.map (eliminate pivot)).length = n := by
      simpa [square] using perm.length_eq
    have hlength' : ∀ s ∈ others.map (eliminate pivot), s.coefficients.length = n := by
      intro s hs
      obtain ⟨q, hq, rfl⟩ := List.mem_map.mp hs
      have hrow := hlength q (perm.subset (by simp [hq]))
      simp [eliminate, hrow, hpivot]
    obtain ⟨hcount, solved⟩ := ih square' hlength' (independent.eliminate perm hlead hlength)
    refine ⟨by simp [hcount], fun q hq => ?_⟩
    show q.Holds (substitute pivot (solveRows n (others.map (eliminate pivot))) ::
      solveRows n (others.map (eliminate pivot)))
    have top := substitute_holds pivot hlead (solveRows n (others.map (eliminate pivot)))
    -- the pivot is solved by substitution, and any other row because its remainder is
    rcases List.mem_cons.mp (perm.symm.subset hq) with rfl | hothers
    · exact top
    · exact holds_of_eliminate hlead ((hlength q hq).trans hpivot.symm) top
        (solved _ (List.mem_map_of_mem hothers))

end

/-! ## Vectors and matrices -/

section

variable {K : Type} {n : Nat}

/-- The equations of a system. -/
def rowsOf (A : Matrix K n n) (b : Vector K n) : List (Row K) :=
  List.zipWith (fun a v => ⟨a.toList, v⟩) A.toList b.toList

theorem mem_rowsOf {A : Matrix K n n} {b : Vector K n} {r : Row K} :
    r ∈ rowsOf A b ↔ ∃ i : Fin n, r = ⟨(A.get i).toList, b.get i⟩ := by
  rw [rowsOf, List.mem_iff_getElem]
  constructor
  · rintro ⟨i, hi, rfl⟩
    exact ⟨⟨i, by simpa using hi⟩, List.getElem_zipWith⟩
  · rintro ⟨i, rfl⟩
    exact ⟨i, by simp, List.getElem_zipWith⟩

variable [Field K]

theorem dot_toList (a x : Vector K n) :
    dot a.toList x.toList = ∑ j : Fin n, a.get j * x.get j := by
  have products : List.zipWith (· * ·) a.toList x.toList =
      List.ofFn fun j : Fin n => a.get j * x.get j :=
    List.ext_getElem (by simp) fun i h h' => by simp; rfl
  rw [dot, products, List.sum_ofFn]

/-- A vector solves a system if it satisfies all its rows. -/
theorem apply_eq_iff {A : Matrix K n n} {b x : Vector K n} :
    A.apply x = b ↔ ∀ r ∈ rowsOf A b, r.Holds x.toList := by
  have entry : ∀ i : Fin n, (A.apply x).get i = dot (A.get i).toList x.toList := fun i => by
    rw [dot_toList, Matrix.get_apply]
  constructor
  · rintro rfl r hr
    obtain ⟨i, rfl⟩ := mem_rowsOf.mp hr
    exact (entry i).symm
  · intro holds
    exact Vectors.ext_get fun i => (entry i).trans (holds _ (mem_rowsOf.mpr ⟨i, rfl⟩))

/-- The rows of a nonsingular matrix are independent. -/
theorem independent_rowsOf {A : Matrix K n n} (nonsingular : A.Nonsingular) (b : Vector K n) :
    Independent n (rowsOf A b) := by
  intro xs hxs zero
  subst hxs
  let x : Vector K xs.length := Vector.ofFn xs.get
  have hx : x.toList = xs := List.ext_getElem (by simp) fun i h h' => by simp [x]
  have zeros : (0 : Vector K xs.length).toList = List.replicate xs.length 0 :=
    List.ext_getElem (by simp) fun i h h' => by simp
  have image : A.apply x = A.apply 0 := by
    refine Vectors.ext_get fun i => ?_
    have hrow := zero _ (mem_rowsOf.mpr ⟨i, rfl⟩)
    rw [Matrix.get_apply, Matrix.get_apply, ← dot_toList, ← dot_toList, hx, zeros, dot_zeros]
    exact hrow
  intro v hv
  rw [← hx, nonsingular image, zeros] at hv
  exact List.eq_of_mem_replicate hv

/-- **Elimination solves every nonsingular system.** -/
theorem solve_solves [LinearOrder K] [IsStrictOrderedRing K] {A : Matrix K n n}
    (nonsingular : A.Nonsingular) (b : Vector K n) : A.apply (solve A b) = b := by
  have square : (rowsOf A b).length = n := by simp [rowsOf]
  have hlength : ∀ r ∈ rowsOf A b, r.coefficients.length = n := by
    intro r hr
    obtain ⟨i, rfl⟩ := mem_rowsOf.mp hr
    simp
  obtain ⟨hcount, holds⟩ := solveRows_solves square hlength (independent_rowsOf nonsingular b)
  have entries : (solve A b).toList = solveRows n (rowsOf A b) :=
    List.ext_getElem (by simp [hcount]) fun i h h' => by
      have hi : (solveRows n (rowsOf A b)).toArray[i]? = some (solveRows n (rowsOf A b))[i] := by
        simp [h']
      simp only [solve, Vector.toList_ofFn, List.getElem_ofFn]
      exact congrArg (Option.getD · 0) hi
  exact apply_eq_iff.mpr fun r hr => entries ▸ holds r hr

end

end Linear

end JetForm
