/-! # Doubles as exact numbers

    A finite double is `± mantissa * 2 ^ exponent` with natural `mantissa`.
    Everything that is printed about a double is computed from this pair in
    exact arithmetic, so no printed digit depends on a rounding. -/

namespace JetForm

/-- What the bits of a double say. -/
inductive Binary64 where
  | finite (negative : Bool) (mantissa : Nat) (exponent : Int)
  | infinite (negative : Bool)
  | undefined

namespace Binary64

/-- The exact content of a double.  A biased exponent of zero marks the
    subnormal numbers, which lack the leading bit. -/
def ofFloat (x : Float) : Binary64 :=
  let bits : Nat := x.toBits.toNat
  let negative := bits / Nat.pow 2 63 == 1
  let biased : Nat := bits / Nat.pow 2 52 % 2048
  let fraction : Nat := bits % Nat.pow 2 52
  if biased = 2047 then
    if fraction = 0 then .infinite negative else .undefined
  else if biased = 0 then .finite negative fraction (-1074)
  else .finite negative (Nat.pow 2 52 + fraction) ((biased : Int) - 1075)

/-- The integer part of a finite double; the fraction is dropped. -/
def truncate? (x : Float) : Option Int :=
  match ofFloat x with
  | .finite negative mantissa exponent =>
    let magnitude : Nat := mantissa * Nat.pow 2 exponent.toNat / Nat.pow 2 (-exponent).toNat
    some (if negative then -(magnitude : Int) else magnitude)
  | _ => none

end Binary64

/-! ## Ratios of natural numbers -/

/-- A non-negative number given as a quotient. -/
structure Ratio where
  numerator : Nat
  denominator : Nat

namespace Ratio

/-- `mantissa * 2 ^ exponent`. -/
def ofBinary (mantissa : Nat) (exponent : Int) : Ratio :=
  ⟨mantissa * Nat.pow 2 exponent.toNat, Nat.pow 2 (-exponent).toNat⟩

/-- The number times `10 ^ power`. -/
def scaleTen (r : Ratio) (power : Int) : Ratio :=
  ⟨r.numerator * Nat.pow 10 power.toNat, r.denominator * Nat.pow 10 (-power).toNat⟩

/-- The integer part. -/
def floor (r : Ratio) : Nat :=
  r.numerator / r.denominator

/-- The nearest integer; a half goes to the even neighbour. -/
def roundEven (r : Ratio) : Nat :=
  let q := r.numerator / r.denominator
  let twice := 2 * (r.numerator % r.denominator)
  if twice < r.denominator then q
  else if r.denominator < twice then q + 1
  else if q % 2 = 0 then q else q + 1

/-- Number of decimal digits of a natural number. -/
def digitCount (n : Nat) : Nat :=
  (Nat.toDigits 10 n).length

/-- The largest `e` with `10 ^ e ≤ r`, for a positive `r`.  The digit counts
    of the two parts leave only two candidates. -/
def decimalExponent (r : Ratio) : Int :=
  let e : Int := (digitCount r.numerator : Int) - digitCount r.denominator
  if r.denominator * Nat.pow 10 e.toNat ≤ r.numerator * Nat.pow 10 (-e).toNat then e else e - 1

/-- The nearest double.  The quotient is computed to at least 64 bits with a
    sticky last bit, so the final conversion rounds the exact value. -/
def toFloat (r : Ratio) : Float :=
  let shift : Int := (64 : Int) + (r.denominator.log2 : Int) - r.numerator.log2
  let scaled : Ratio := ⟨r.numerator * Nat.pow 2 shift.toNat, r.denominator * Nat.pow 2 (-shift).toNat⟩
  let sticky := if scaled.numerator % scaled.denominator = 0 then 0 else 1
  (Float.ofNat (2 * scaled.floor + sticky)).scaleB (-shift - 1)

end Ratio

end JetForm
