import JetForm.Scalar

/-! # Sine and cosine

    An angle is taken back to `[-π/4, π/4]` by quarter turns.  There the
    tangent `t` of half the angle gives both functions at once, as the point
    `((1 - t²) / (1 + t²), 2 t / (1 + t²))` of the unit circle; each quarter
    turn exchanges the two coordinates and turns one sign.

    The turns themselves are free of rounding, so next to a zero of a function
    its relative precision is kept, and the angle zero has the point `(1, 0)`.
    Angles too large for the reduction go to the core library. -/

namespace JetForm

namespace Circular

/-- A point of the plane. -/
structure Point (K : Type) where
  x : K
  y : K

/-- The point of the unit circle at the angle whose half has the tangent
    `t`. -/
def ofHalfTangent {K : Type} [Add K] [Sub K] [Mul K] [Div K] [One K] (t : K) : Point K :=
  let square := t * t
  ⟨(1 - square) / (1 + square), (t + t) / (1 + square)⟩

/-- A point turned left by a quarter turn. -/
def Point.quarterTurn {K : Type} [Neg K] (p : Point K) : Point K :=
  ⟨-p.y, p.x⟩

/-- A point after several quarter turns. -/
def Point.turn {K : Type} [Neg K] (p : Point K) : Nat → Point K
  | 0 => p
  | n + 1 => (p.turn n).quarterTurn

/-- `π/2` as a sum of three doubles, the largest first.  The first two have 33
    bits, so their products with small whole numbers are exact. -/
def quarterParts : List Float :=
  [1.57079632673412561417e+00, 6.07710050630396597660e-11, 2.02226624879595063154e-21]

/-- What is left of an angle after whole quarter turns are taken away.  Without
    any turns it is the angle itself, also with the sign of a zero. -/
def reduce (angle turns : Float) : Float :=
  if turns == 0 then angle
  else quarterParts.foldl (fun r part => r - turns * part) angle

/-- The number of quarter turns up to which the reduction is exact enough. -/
def mostTurns : Float := 1048576

/-- The point of the unit circle at an angle, if it can be reduced. -/
def point? (angle : Float) : Option (Point Float) :=
  let turns := (angle / (pi / 2)).round
  if turns.abs < mostTurns then
    let p := ofHalfTangent (reduce angle turns / 2).tan
    some (p.turn (turns.toInt64.toInt % 4).toNat)
  else none

/-- The sine of a double. -/
def sine (x : Float) : Float :=
  ((point? x).map Point.y).getD x.sin

/-- The cosine of a double. -/
def cosine (x : Float) : Float :=
  ((point? x).map Point.x).getD x.cos

end Circular

end JetForm
