import JetForm.Decimal.Binary64

/-! # Decimal digits of a double

    Two ways to choose decimal digits for a positive double:

    * `Decimal.rounded p` keeps `p` significant digits, correctly rounded;
    * `Decimal.shortest` takes the fewest digits that read back as the same
      double, and of those the nearest.

    Both work on the exact binary value. -/

namespace JetForm

/-- `digits * 10 ^ (exponent - count + 1)`, where `count` is the number of
    digits: `exponent` is the power of ten of the leading digit. -/
structure Decimal where
  digits : Nat
  exponent : Int

namespace Decimal

/-- The value on the grid of `count` significant digits whose leading digit
    stands at `10 ^ exponent`; a carry out of the top moves the grid up. -/
def onGrid (count : Nat) (digits : Nat) (exponent : Int) : Decimal :=
  if digits = Nat.pow 10 count then ⟨Nat.pow 10 (count - 1), exponent + 1⟩ else ⟨digits, exponent⟩

/-- `count` significant digits of `mantissa * 2 ^ exponent`, a half rounded to
    the even neighbour.  The mantissa is positive. -/
def rounded (count mantissa : Nat) (exponent : Int) : Decimal :=
  let value := Ratio.ofBinary mantissa exponent
  let top := value.decimalExponent
  onGrid count (value.scaleTen ((count : Int) - 1 - top)).roundEven top

/-! ## Shortest digits

    The reals that round to `mantissa * 2 ^ exponent` form an interval.  It is
    kept in quarter units `2 ^ (exponent - 2)`: the upper end lies two quarters
    above the value, the lower end two quarters below, or one quarter when the
    mantissa is the least of its binade.  The ends belong to the interval iff
    the mantissa is even. -/

/-- Does `digits` times ten to the `unit` round to the given double? -/
def readsBack (mantissa : Nat) (exponent : Int) (digits : Nat) (unit : Int) : Bool :=
  let low := 4 * mantissa - (if mantissa = Nat.pow 2 52 && exponent != -1074 then 1 else 2)
  let high := 4 * mantissa + 2
  -- compare `digits * 10 ^ unit` with `quarters * 2 ^ (exponent - 2)`
  let quarter := exponent - 2
  let left := digits * Nat.pow 10 unit.toNat * Nat.pow 2 (-quarter).toNat
  let scale := Nat.pow 2 quarter.toNat * Nat.pow 10 (-unit).toNat
  if mantissa % 2 = 0 then low * scale ≤ left && left ≤ high * scale
  else low * scale < left && left < high * scale

/-- The neighbours of the value on the grid of `count` digits that read back,
    the nearer one if both do. -/
def candidate (mantissa : Nat) (exponent : Int) (top : Int) (count : Nat) : Option Nat :=
  let unit := top - ((count : Int) - 1)
  let scaled := (Ratio.ofBinary mantissa exponent).scaleTen (-unit)
  let below := scaled.floor
  let nearest := scaled.roundEven
  let other := if nearest = below then below + 1 else below
  if readsBack mantissa exponent nearest unit then some nearest
  else if readsBack mantissa exponent other unit then some other
  else none

/-- The fewest digits that read back as the same double.  Seventeen always do. -/
def shortest (mantissa : Nat) (exponent : Int) : Nat × Decimal :=
  let top := (Ratio.ofBinary mantissa exponent).decimalExponent
  let hit := (List.range 17).findSome? fun n =>
    (candidate mantissa exponent top (n + 1)).map fun digits => (n + 1, onGrid (n + 1) digits top)
  hit.getD (17, rounded 17 mantissa exponent)

/-- The digits as text, without the zeros at the end but at least one digit. -/
def trimmed (d : Decimal) : List Char :=
  let kept := ((Nat.toDigits 10 d.digits).reverse.dropWhile (· = '0')).reverse
  if kept.isEmpty then ['0'] else kept

end Decimal

end JetForm
