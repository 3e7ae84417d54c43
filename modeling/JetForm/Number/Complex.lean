import JetForm.Scalar

/-! # Complex numbers over the doubles

    The arithmetic of complex numbers and the principal values of the
    elementary functions.  Division scales by the larger part of the divisor,
    so that it overflows only where the quotient does; the inverse functions
    follow the usual branch cuts, with the sign of a zero choosing the side. -/

namespace JetForm

/-- A real and an imaginary part. -/
structure ComplexNumber where
  re : Float
  im : Float
  deriving DecidableEq

namespace ComplexNumber

instance : Inhabited ComplexNumber := ⟨⟨0, 0⟩⟩

instance : Hashable ComplexNumber where
  hash z := mixHash (hash z.re.toBits) (hash z.im.toBits)

/-! ## Arithmetic -/

def ofReal (x : Float) : ComplexNumber :=
  ⟨x, 0⟩

instance complexZero : Zero ComplexNumber := ⟨ofReal 0⟩

instance complexOne : One ComplexNumber := ⟨ofReal 1⟩

instance complexNeg : Neg ComplexNumber := ⟨fun z => ⟨-z.re, -z.im⟩⟩

instance complexAdd : Add ComplexNumber := ⟨fun z w => ⟨z.re + w.re, z.im + w.im⟩⟩

instance complexSub : Sub ComplexNumber := ⟨fun z w => ⟨z.re - w.re, z.im - w.im⟩⟩

instance complexMul : Mul ComplexNumber :=
  ⟨fun z w => ⟨z.re * w.re - z.im * w.im, z.re * w.im + z.im * w.re⟩⟩

/-- The quotient, scaled by the larger part of the divisor. -/
def div (z w : ComplexNumber) : ComplexNumber :=
  if w.im.abs ≤ w.re.abs then
    let ratio := w.im / w.re
    let scale := w.re + w.im * ratio
    ⟨(z.re + z.im * ratio) / scale, (z.im - z.re * ratio) / scale⟩
  else
    let ratio := w.re / w.im
    let scale := w.re * ratio + w.im
    ⟨(z.re * ratio + z.im) / scale, (z.im * ratio - z.re) / scale⟩

instance complexDiv : Div ComplexNumber := ⟨div⟩

/-- Are both parts zero? -/
def isZero (z : ComplexNumber) : Bool :=
  z.re == 0 && z.im == 0

/-- The number times a real one. -/
def scale (x : Float) (z : ComplexNumber) : ComplexNumber :=
  ⟨x * z.re, x * z.im⟩

/-- The number times the imaginary unit. -/
def turn (z : ComplexNumber) : ComplexNumber :=
  ⟨-z.im, z.re⟩

/-- The number divided by the imaginary unit. -/
def turnBack (z : ComplexNumber) : ComplexNumber :=
  ⟨z.im, -z.re⟩

def conjugate (z : ComplexNumber) : ComplexNumber :=
  ⟨z.re, -z.im⟩

/-- The distance from zero. -/
def abs (z : ComplexNumber) : Float :=
  let x := z.re.abs
  let y := z.im.abs
  if x.isInf || y.isInf then 1 / 0
  else
    let most := if x < y then y else x
    let least := if x < y then x else y
    if most == 0 then 0
    else
      let ratio := least / most
      most * (1 + ratio * ratio).sqrt

/-- The angle from the positive real axis. -/
def arg (z : ComplexNumber) : Float :=
  Float.atan2 z.im z.re

/-- The number with a given length and angle. -/
def polar (length angle : Float) : ComplexNumber :=
  ⟨length * angle.cos, length * angle.sin⟩

/-! ## Elementary functions -/

def exp (z : ComplexNumber) : ComplexNumber :=
  if z.im == 0 then ⟨z.re.exp, z.im⟩ else polar z.re.exp z.im

def log (z : ComplexNumber) : ComplexNumber :=
  ⟨z.abs.log, z.arg⟩

def sqrt (z : ComplexNumber) : ComplexNumber :=
  if z.isZero then ⟨0, z.im⟩
  else
    let root := ((z.re.abs + z.abs) / 2).sqrt
    if 0 ≤ z.re then ⟨root, z.im / (2 * root)⟩
    else ⟨z.im.abs / (2 * root), if z.im < 0 || (1 / z.im) < 0 then -root else root⟩

/-- A power, as the exponential of a multiple of the logarithm. -/
def pow (z w : ComplexNumber) : ComplexNumber :=
  if w.isZero then 1
  else if z.isZero then 0
  else
    let length := z.abs ^ w.re
    let angle := z.arg * w.re
    if w.im == 0 then polar length angle
    else polar (length * (-z.arg * w.im).exp) (angle + w.im * z.abs.log)

/-- `exp z - 1`. -/
def expm1 (z : ComplexNumber) : ComplexNumber :=
  let half := (z.im / 2).sin
  let grown := z.re.exp
  ⟨(grown - 1) * z.im.cos - 2 * half * half, grown * z.im.sin⟩

/-- `log (1 + z)`. -/
def log1p (z : ComplexNumber) : ComplexNumber :=
  log ⟨1 + z.re, z.im⟩

def sinh (z : ComplexNumber) : ComplexNumber :=
  ⟨z.re.sinh * z.im.cos, z.re.cosh * z.im.sin⟩

def cosh (z : ComplexNumber) : ComplexNumber :=
  ⟨z.re.cosh * z.im.cos, z.re.sinh * z.im.sin⟩

/-- The hyperbolic tangent; far from the imaginary axis it is `1` or `-1`. -/
def tanh (z : ComplexNumber) : ComplexNumber :=
  if z.re.abs > 300 then ⟨if z.re < 0 then -1 else 1, 0⟩
  else
    let scale := (2 * z.re).cosh + (2 * z.im).cos
    ⟨(2 * z.re).sinh / scale, (2 * z.im).sin / scale⟩

def sin (z : ComplexNumber) : ComplexNumber :=
  z.turn.sinh.turnBack

def cos (z : ComplexNumber) : ComplexNumber :=
  z.turn.cosh

def tan (z : ComplexNumber) : ComplexNumber :=
  z.turn.tanh.turnBack

def asin (z : ComplexNumber) : ComplexNumber :=
  let below := sqrt (1 - z)
  let above := sqrt (1 + z)
  ⟨Float.atan2 z.re (below * above).re, (below.conjugate * above).im.asinh⟩

def acos (z : ComplexNumber) : ComplexNumber :=
  let below := sqrt (1 - z)
  let above := sqrt (1 + z)
  ⟨2 * Float.atan2 below.re above.re, (above.conjugate * below).im.asinh⟩

def asinh (z : ComplexNumber) : ComplexNumber :=
  z.turn.asin.turnBack

def acosh (z : ComplexNumber) : ComplexNumber :=
  let below := sqrt (z - 1)
  let above := sqrt (z + 1)
  ⟨(below.conjugate * above).re.asinh, 2 * Float.atan2 below.im above.re⟩

def atanh (z : ComplexNumber) : ComplexNumber :=
  scale 0.5 (log (1 + z) - log (1 - z))

def atan (z : ComplexNumber) : ComplexNumber :=
  z.turn.atanh.turnBack

end ComplexNumber

end JetForm
