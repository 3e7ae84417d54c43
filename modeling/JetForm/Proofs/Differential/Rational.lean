import JetForm.Proofs.Differential.Interpretation
import Mathlib

/-! # Rational functions of the independent variable

    The field `ℚ(X)` with the derivation for which `X` has derivative one.  A
    plain number stands for the rational number that its double is. -/

namespace JetForm

open Polynomial Float.Model

/-! ## Doubles -/

/-- The rational number that a double is; undefined and infinite ones count as
    zero. -/
def rationalOfFloat (x : Float) : ℚ :=
  match x.toModel.unpack with
  | .finite .positive m e _ => m * 2 ^ e
  | .finite .negative m e _ => -(m * 2 ^ e)
  | _ => 0

theorem unpack_zero : (0 : Float).toModel.unpack = .zero .positive := by
  rfl

theorem unpack_one :
    (1 : Float).toModel.unpack = .finite .positive (2 ^ 52) (-52) (by decide) := by
  rfl

theorem rationalOfFloat_zero {x : Float} (zero : (x == 0) = true) : rationalOfFloat x = 0 := by
  have compare : (x.toModel.unpack.compare (0 : Float).toModel.unpack == some .eq) = true := zero
  rw [unpack_zero] at compare
  rw [rationalOfFloat]
  cases value : x.toModel.unpack with
  | finite s m e h =>
    rw [value] at compare
    cases s <;> cases compare
  | infinity | notANumber | zero => rfl

theorem rationalOfFloat_one {x : Float} (one : (x == 1) = true) : rationalOfFloat x = 1 := by
  have compare : (x.toModel.unpack.compare (1 : Float).toModel.unpack == some .eq) = true := one
  rw [unpack_one] at compare
  rw [rationalOfFloat]
  cases value : x.toModel.unpack with
  | finite s m e h =>
    rw [value] at compare
    cases s with
    | negative => cases compare
    | positive =>
      have same : (Ord.compare e (-52)).then (Ord.compare m (2 ^ 52)) = .eq := by
        simpa [UnpackedFloat.compare] using compare
      obtain ⟨he, hm⟩ := Ordering.then_eq_eq.mp same
      obtain rfl := Std.LawfulEqOrd.eq_of_compare he
      obtain rfl := Std.LawfulEqOrd.eq_of_compare hm
      norm_num
  | infinity s | zero s =>
    rw [value] at compare
    cases s <;> cases compare
  | notANumber =>
    rw [value] at compare
    cases compare

theorem rationalOfFloat_canonicalZero (x : Float) :
    rationalOfFloat (Number.canonicalZero x) = rationalOfFloat x := by
  rw [Number.canonicalZero]
  split
  next zero => rw [rationalOfFloat_zero zero, rationalOfFloat_zero (by decide)]
  next => rfl

/-- The rational number that a plain number stands for. -/
def Number.rational (n : Number) : ℚ :=
  rationalOfFloat n.toFloat

theorem Number.rational_key (n : Number) : n.key.rational = n.rational := by
  cases n with
  | bool | int => rfl
  | double x origin => exact rationalOfFloat_canonicalZero x
  | complex z => exact rationalOfFloat_canonicalZero z.re
  | wide x origin =>
    cases x with
    | truth | whole => rfl
    | real x => exact rationalOfFloat_canonicalZero x
    | complex z => exact rationalOfFloat_canonicalZero z.re

/-! ## The field -/

/-- A derivation from an additive map that obeys the product rule. -/
def derivationOfAdditive {K : Type} [Field K] (D : K →+ K)
    (leibniz : ∀ a b, D (a * b) = a * D b + b * D a) : Derivation ℤ K K :=
  Derivation.mk' D.toIntLinearMap leibniz

/-- The fractions of polynomials have a derivation for which the variable has
    derivative one. -/
theorem exists_derivation (F : Type) [Field F] [Algebra ℚ[X] F] [IsFractionRing ℚ[X] F] :
    ∃ D : Derivation ℤ F F, D (algebraMap ℚ[X] F X) = 1 ∧
      ∀ q : ℚ, D (algebraMap ℚ[X] F (C q)) = 0 := by
  let _ : Algebra ℚ F := ((algebraMap ℚ[X] F).comp C).toAlgebra
  have _ : IsScalarTower ℚ ℚ[X] F := IsScalarTower.of_algebraMap_eq fun _ => rfl
  -- there are no more derivations of fractions than of polynomials
  have _ : Algebra.FormallyEtale ℚ[X] F :=
    Algebra.FormallyEtale.of_isLocalization (nonZeroDivisors ℚ[X])
  have change := KaehlerDifferential.isBaseChange_of_formallyEtale ℚ ℚ[X] F
  let D : Derivation ℚ F F :=
    (change.lift (mkDerivation ℚ (1 : F)).liftKaehlerDifferential).compDer
      (KaehlerDifferential.D ℚ F)
  refine ⟨derivationOfAdditive D.toLinearMap.toAddMonoidHom D.leibniz, ?_, ?_⟩
  · have lift := change.lift_eq (mkDerivation ℚ (1 : F)).liftKaehlerDifferential
      (KaehlerDifferential.D ℚ ℚ[X] X)
    rw [KaehlerDifferential.map_D, Derivation.liftKaehlerDifferential_comp_D,
      mkDerivation_X] at lift
    exact lift
  · exact fun q => D.map_algebraMap q

/-- A rational number as a rational function. -/
noncomputable def rationalC : ℚ →+* FractionRing ℚ[X] :=
  (algebraMap ℚ[X] (FractionRing ℚ[X])).comp C

/-- Expressions as rational functions.  External functions and operations that
    are none of the field are zero. -/
noncomputable def Interpretation.rational : Interpretation (FractionRing ℚ[X]) where
  D := (exists_derivation (FractionRing ℚ[X])).choose
  time := algebraMap ℚ[X] (FractionRing ℚ[X]) X
  number n := rationalC n.rational
  external _ := 0
  unary _ _ := 0
  power _ _ := 0
  D_time := (exists_derivation (FractionRing ℚ[X])).choose_spec.1
  D_number n := (exists_derivation (FractionRing ℚ[X])).choose_spec.2 n.rational
  number_key n := by rw [Number.rational_key]
  number_zero := by
    rw [show (Number.ofFloat 0).rational = 0 from rationalOfFloat_zero (by decide), map_zero]
  number_one := by
    rw [show (Number.ofFloat 1).rational = 1 from rationalOfFloat_one (by decide), map_one]

theorem Number.rational_zero {n : Number} (zero : n.isZero = true) : n.rational = 0 := by
  refine rationalOfFloat_zero ?_
  cases n with
  | bool b =>
    cases b with
    | true => cases zero
    | false => decide
  | int n =>
    obtain rfl : n = 0 := by simpa [Number.isZero] using zero
    decide
  | double x origin => exact zero
  | complex z => exact (Bool.and_eq_true_iff.mp zero).1
  | wide x origin =>
    cases x with
    | truth b =>
      cases b with
      | true => cases zero
      | false => exact (by decide : ((0 : Float) == 0) = true)
    | whole n =>
      obtain rfl : n = 0 := by simpa [Number.isZero, Entry.isTrue] using zero
      exact (by decide : (Float.ofInt (0 : Int64).toInt == 0) = true)
    | real x =>
      have zero : (x == 0) = true := by simpa [Number.isZero, Entry.isTrue, bne] using zero
      exact zero
    | complex z =>
      have zero : z.isZero = true := by simpa [Number.isZero, Entry.isTrue] using zero
      exact (Bool.and_eq_true_iff.mp zero).1

theorem Number.rational_of_toDouble {n : Number} {x : Float} (double : n.toDouble = .ok x) :
    n.rational = rationalOfFloat x := by
  cases n with
  | int n =>
    dsimp only [Number.toDouble] at double
    split at double
    next =>
      cases double
      rfl
    next => cases double
  | complex z => cases double
  | bool | double | wide =>
    cases double
    rfl

/-- A number that is the same constant as one is one. -/
theorem Number.toDouble_of_key_one {n : Number} (one : n.key = .ofFloat 1) :
    n.toDouble = .ok 1 := by
  cases n with
  | double x origin =>
    have same : Number.canonicalZero x = 1 := congrArg Number.toFloat one
    unfold Number.canonicalZero at same
    split at same
    · exact absurd same (by decide)
    · exact congrArg Except.ok same
  | bool | int | complex | wide => cases one

theorem Interpretation.faithful_rational : Interpretation.rational.Faithful := by
  refine ⟨?_, ?_⟩
  · intro n zero
    show rationalC n.rational = 0
    rw [Number.rational_zero zero, map_zero]
  · intro n x _ double one
    show rationalC n.rational = 1
    rw [Number.rational_of_toDouble double, rationalOfFloat_one one, map_one]

end JetForm
