import JetForm.Decimal.Binary64
import JetForm.Scalar

/-! # The Airy function Ai

    Near the origin Ai is the combination `c₁ f - c₂ g` of the two entire
    solutions of `y'' = x y`.  The two parts cancel almost completely for
    positive arguments, so the series are summed in fixed point with 240 binary
    places and the result is rounded once.  Away from the origin the asymptotic
    expansions are accurate to full precision. -/

namespace JetForm

namespace Airy

/-! ## Series in fixed point -/

/-- The unit of the fixed-point numbers. -/
def unit : Int := Int.pow 2 240

/-- `Ai(0)`. -/
def value₀ : Int :=
  627280274925671948263959612228439667461185776172609643220742822683746827

/-- `-Ai'(0)`. -/
def slope₀ : Int :=
  457294303899012124185851141880735833815753884237688478484002605924785163

/-- The double in fixed point, or zero if it is not finite. -/
def toFixed (x : Float) : Int :=
  match Binary64.ofFloat x with
  | .finite negative mantissa exponent =>
    let magnitude : Int := (Ratio.ofBinary mantissa (exponent + 240)).floor
    if negative then -magnitude else magnitude
  | _ => 0

/-- The double nearest to a fixed-point number. -/
def ofFixed (n : Int) : Float :=
  let magnitude := if n = 0 then 0 else Ratio.toFloat ⟨n.natAbs, unit.natAbs⟩
  if n < 0 then -magnitude else magnitude

/-- The sum of `count` terms, where term `k + 1` is term `k` times the cube of
    the argument over `(3 k + shift) (3 k + shift + 1)`. -/
def series (cube : Int) (shift : Nat) (first : Int) (count : Nat) : Int :=
  let step := fun (state : Int × Int) (k : Nat) =>
    let next := (state.2 * cube).fdiv (unit * ((3 * k + shift) * (3 * k + shift + 1) : Nat))
    (state.1 + next, next)
  ((List.range count).foldl step (first, first)).1

/-- Ai for arguments of moderate size. -/
def nearOrigin (x : Float) : Float :=
  let a := toFixed x
  let cube := ((a * a).fdiv unit * a).fdiv unit
  let f := series cube 2 unit 120
  let g := series cube 3 a 120
  ofFixed ((value₀ * f - slope₀ * g).fdiv unit)

/-! ## Asymptotic expansions -/

/-- The coefficients `u₀, u₁, …` of the expansions. -/
def coefficients (count : Nat) : List Float :=
  ((List.range count).foldl (fun (acc : List Float × Float) k =>
      let j := Float.ofNat (k + 1)
      let next := acc.2 * (6 * j - 5) * (6 * j - 3) * (6 * j - 1) / (216 * j * (2 * j - 1))
      (next :: acc.1, next)) ([1], 1)).1.reverse

/-- `2/3 x^(3/2)`, the argument of the expansions. -/
def phase (x : Float) : Float :=
  2 / 3 * x * x.sqrt

/-- Ai for large positive arguments. -/
def decaying (x : Float) : Float :=
  let z := phase x
  let sum := ((coefficients 16).foldr (fun u rest => u - rest / z) 0)
  (-z).exp / (2 * pi.sqrt * x.sqrt.sqrt) * sum

/-- Ai at `-x` for large positive `x`. -/
def oscillating (x : Float) : Float :=
  let z := phase x
  let (even, odd, _) := (coefficients 16).foldl
    (fun (acc : Float × Float × Nat × Float) u =>
      let (even, odd, k, power) := acc
      let term := (if k / 2 % 2 = 0 then u else -u) / power
      if k % 2 = 0 then (even + term, odd, k + 1, power * z)
      else (even, odd + term, k + 1, power * z)) (0, 0, 0, 1)
  ((z - pi / 4).cos * even + (z - pi / 4).sin * odd) / (pi.sqrt * x.sqrt.sqrt)

/-! ## Limits -/

/-- Beyond this magnitude no digit of the phase is left, and there is no
    result. -/
def widest : Float := 1048575.9996744783

/-- Does the function count as zero?  This is decided by its order of magnitude,
    well above the least positive double. -/
def vanishes (x : Float) : Bool :=
  let z := phase x
  z + (2 * z / pi).log / 2 > 700.92

end Airy

/-- The Airy function Ai. -/
def airy (x : Float) : Float :=
  if x.isNaN then x
  else if x.abs > Airy.widest then 0 / 0
  else if x > 10 then (if Airy.vanishes x then 0 else Airy.decaying x)
  else if x < -10 then Airy.oscillating (-x)
  else Airy.nearOrigin x

end JetForm
