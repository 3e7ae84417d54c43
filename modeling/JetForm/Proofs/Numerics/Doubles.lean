import Mathlib.Data.Prod.Lex
import Mathlib.Algebra.Order.Ring.Int
import JetForm.Proofs.Domain

/-! # Domains of doubles

    Comparing finite doubles means comparing their sides of zero, then their
    exponents, then their mantissas.  So their order is that of triples of
    integers, which is linear, and domains of doubles have all that domains over
    a linear order have: whatever has the same ends can be merged. -/

namespace JetForm

namespace Doubles

open Float.Model

/-! ## The order of finite doubles -/

theorem compare_toLex {α β : Type} [Ord α] [Ord β] (a b : α) (c d : β) :
    compare (toLex (a, c)) (toLex (b, d)) = (compare a b).then (compare c d) := by
  rw [Prod.Lex.compare_def]
  rfl

theorem compare_neg (a b : ℤ) : compare (-a) (-b) = (compare a b).swap := by
  rcases lt_trichotomy a b with h | rfl | h
  · rw [compare_gt_iff_gt.mpr (neg_lt_neg h), compare_lt_iff_lt.mpr h]
    rfl
  · rw [compare_eq_iff_eq.mpr rfl, compare_eq_iff_eq.mpr rfl]
    rfl
  · rw [compare_lt_iff_lt.mpr (neg_lt_neg h), compare_gt_iff_gt.mpr h]
    rfl

theorem compare_natCast (m n : ℕ) : compare (m : ℤ) (n : ℤ) = compare m n := by
  rcases lt_trichotomy m n with h | rfl | h
  · rw [compare_lt_iff_lt.mpr (Int.ofNat_lt.mpr h), compare_lt_iff_lt.mpr h]
  · rw [compare_eq_iff_eq.mpr rfl, compare_eq_iff_eq.mpr rfl]
  · rw [compare_gt_iff_gt.mpr (Int.ofNat_lt.mpr h), compare_gt_iff_gt.mpr h]

/-- The side of zero, the exponent and the mantissa of a finite double, so that the triples
    increase with the doubles. -/
def rankOf : UnpackedFloat → ℤ ×ₗ ℤ ×ₗ ℤ
  | .finite .positive m e _ => toLex (1, toLex (e, (m : ℤ)))
  | .finite .negative m e _ => toLex (-1, toLex (-e, -(m : ℤ)))
  | _ => toLex (0, toLex (0, 0))

theorem compare_rankOf {x y : UnpackedFloat} (hx : x.isFinite = true) (hy : y.isFinite = true) :
    x.compare y = some (compare (rankOf x) (rankOf y)) := by
  cases x with
  | notANumber | infinity => cases hx
  | zero s =>
    cases y with
    | notANumber | infinity => cases hy
    | zero s => cases s <;> rfl
    | finite s m e h => cases s <;> rfl
  | finite s m e h =>
    cases y with
    | notANumber | infinity => cases hy
    | zero s' => cases s <;> rfl
    | finite s' m' e' h' =>
      cases s with
      | positive =>
        cases s' with
        | negative => rfl
        | positive =>
          -- normalised mantissas: the exponent decides, and among equal ones the mantissa
          show some _ = some (compare (toLex (1, _)) (toLex (1, _)))
          rw [compare_toLex, compare_toLex, compare_natCast]
          rfl
      | negative =>
        cases s' with
        | positive => rfl
        | negative =>
          -- farther from zero is less here, in the exponent and in the mantissa
          show some _ = some (compare (toLex (-1, _)) (toLex (-1, _)))
          rw [compare_toLex, compare_toLex, compare_neg e e', compare_neg m m', compare_natCast,
            ← Ordering.swap_then]
          rfl

/-- The rank of a double.  It means something for finite ones. -/
def rank (x : Float) : ℤ ×ₗ ℤ ×ₗ ℤ :=
  rankOf x.toModel.unpack

/-- Finite doubles are ordered like their ranks. -/
theorem ranked : Domain.Ranked rank where
  lt x y hx hy := by
    show decide (x.toModel < y.toModel) = true ↔ _
    rw [decide_eq_true_iff]
    show (x.toModel.unpack.compare y.toModel.unpack == some .lt) = true ↔ _
    rw [compare_rankOf hx hy, beq_iff_eq, Option.some.injEq]
    exact compare_lt_iff_lt
  le x y hx hy := by
    show decide (x.toModel ≤ y.toModel) = true ↔ _
    rw [decide_eq_true_iff]
    show (x.toModel.unpack.compare y.toModel.unpack).any Ordering.isLE = true ↔ _
    rw [compare_rankOf hx hy, Option.any_some, Ordering.isLE_iff_ne_gt, compare_gt_iff_gt]
    exact not_lt
  beq x y hx hy := by
    show (x.toModel.unpack.compare y.toModel.unpack == some .eq) = true ↔ _
    rw [compare_rankOf hx hy, beq_iff_eq, Option.some.injEq]
    exact compare_eq_iff_eq

end Doubles

end JetForm
