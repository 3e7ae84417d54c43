import Mathlib
import JetForm.Domain

/-! # Chebyshev points

    Computed exactly, Chebyshev points increase from one end of an interval to the
    other, and both ends are among them.  The cosine of `k π / n` is a parameter.
    Nothing is assumed of it but that it falls from one to minus one. -/

namespace JetForm

namespace Domain

/-! ## Grids -/

section

variable {K : Type} [LinearOrder K] {a b : K} {points : List K}

/-- Points that increase from one end of an interval to the other. -/
structure IsGrid (a b : K) (points : List K) : Prop where
  first : points.head? = some a
  last : points.getLast? = some b
  increasing : points.Pairwise (· < ·)

namespace IsGrid

variable (grid : IsGrid a b points)
include grid

/-- All points are between the ends, and the right end comes last. -/
theorem append : ∃ inner, points = inner ++ [b] ∧ ∀ t ∈ inner, a ≤ t ∧ t < b := by
  obtain ⟨first, last, increasing⟩ := grid
  obtain ⟨inner, rfl⟩ := List.getLast?_eq_some_iff.mp last
  refine ⟨inner, rfl, fun t ht => ⟨?_, ?_⟩⟩
  · cases inner with
    | nil => cases ht
    | cons c inner =>
      cases first
      rcases List.mem_cons.mp ht with rfl | ht
      · exact le_rfl
      · exact (List.rel_of_pairwise_cons increasing (List.mem_append_left [b] ht)).le
  · exact (List.pairwise_append.mp increasing).2.2 t ht b (List.mem_singleton_self b)

theorem within (ordered : a ≤ b) {t : K} (ht : t ∈ points) : a ≤ t ∧ t ≤ b := by
  obtain ⟨inner, rfl, inside⟩ := grid.append
  rcases List.mem_append.mp ht with ht | ht
  · exact ⟨(inside t ht).1, (inside t ht).2.le⟩
  · rw [List.mem_singleton.mp ht]
    exact ⟨ordered, le_rfl⟩

theorem first_mem : a ∈ points :=
  List.mem_of_mem_head? grid.first

theorem last_mem : b ∈ points :=
  List.mem_of_getLast? grid.last

end IsGrid

end

/-! ## Cosines -/

section

variable {K : Type} [Field K] [LinearOrder K] [IsStrictOrderedRing K]

/-- The cosines of `k π / n` fall from one to minus one. -/
structure Cosines (cosine : Nat → Int → K) : Prop where
  first : ∀ n : Nat, 0 < n → cosine 0 n = 1
  last : ∀ n : Nat, 0 < n → cosine n n = -1
  falls : ∀ n k l : Nat, k < l → l ≤ n → cosine l n < cosine k n

/-- So do those of the real numbers. -/
theorem cosines_real : Cosines fun k n => Real.cos (k * Real.pi / n) where
  first n _ := by simp
  last n pos := by
    have nonzero : (n : ℝ) ≠ 0 := Nat.cast_ne_zero.mpr pos.ne'
    rw [Int.cast_natCast, mul_div_cancel_left₀ _ nonzero, Real.cos_pi]
  falls n k l below le := by
    have pos : (0 : ℝ) < n := Nat.cast_pos.mpr (by omega)
    have inside : ∀ m : Nat, m ≤ n → (m : ℝ) * Real.pi / n ∈ Set.Icc 0 Real.pi := by
      intro m hm
      refine ⟨by positivity, (div_le_iff₀ pos).mpr ?_⟩
      rw [mul_comm Real.pi]
      exact mul_le_mul_of_nonneg_right (Nat.cast_le.mpr hm) Real.pi_pos.le
    have rises : (k : ℝ) * Real.pi / n < l * Real.pi / n :=
      div_lt_div_of_pos_right
        (mul_lt_mul_of_pos_right (Nat.cast_lt.mpr below) Real.pi_pos) pos
    simp only [Int.cast_natCast]
    exact Real.strictAntiOn_cos (inside k (by omega)) (inside l le) rises

/-- A rational stand-in for the cosines, for which the points are evenly spaced. -/
theorem cosines_even : Cosines fun k n => 1 - 2 * (k : K) / n where
  first n _ := by simp
  last n pos := by
    have nonzero : (n : K) ≠ 0 := Nat.cast_ne_zero.mpr pos.ne'
    rw [Int.cast_natCast, mul_div_cancel_right₀ _ nonzero]
    norm_num
  falls n k l below le := by
    have pos : (0 : K) < n := Nat.cast_pos.mpr (by omega)
    have less : (k : K) < l := Nat.cast_lt.mpr below
    have divided : 2 * (k : K) / n < 2 * l / n := div_lt_div_of_pos_right (by linarith) pos
    simp only [Int.cast_natCast]
    linarith

theorem isGrid_chebyshevBy {cosine : Nat → Int → K} (cosines : Cosines cosine) {count : Nat}
    (two : 2 ≤ count) {a b : K} (below : a < b) : IsGrid a b (chebyshevBy cosine count a b) := by
  have n : ((count : Int) - 1) = ((count - 1 : Nat) : Int) := by omega
  have half : (0.5 : K) = 1 / 2 := by norm_num
  unfold chebyshevBy
  rw [n, half]
  refine ⟨?_, ?_, ?_⟩
  · rw [List.head?_map, List.head?_range, if_neg (by omega), Option.map_some,
      cosines.first _ (by omega)]
    ring_nf
  · rw [List.getLast?_map, List.getLast?_range, if_neg (by omega), Option.map_some,
      cosines.last _ (by omega)]
    ring_nf
  · rw [List.pairwise_map]
    refine List.pairwise_lt_range.imp_of_mem ?_
    intro k l hk hl less
    rw [List.mem_range] at hl
    have falls := cosines.falls (count - 1) k l less (by omega)
    have pos : 0 < 1 / 2 * (b - a) := by linarith
    have scaled := mul_lt_mul_of_pos_left falls pos
    linarith

end

end Domain

end JetForm
