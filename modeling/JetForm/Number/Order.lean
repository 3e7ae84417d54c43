import JetForm.Decimal.Binary64
import JetForm.Number.Arithmetic
import JetForm.Operation.Unruled

/-! # Order and whole quotients

    Plain numbers are compared exactly, integers with doubles too: every double
    is a whole multiple of the least positive one.  The quotient without a
    fraction is rounded down, and the remainder has the sign of the divisor.

    Entries of arrays are compared in the wider of their kinds.  A word that is
    divided by zero gives zero. -/

namespace JetForm

/-! ## Doubles -/

namespace Binary64

/-- A finite double as a multiple of the least positive one. -/
def units? (x : Float) : Option Int :=
  match ofFloat x with
  | .finite negative mantissa exponent =>
    let magnitude : Nat := mantissa * Nat.pow 2 (exponent + 1074).toNat
    some (if negative then -(magnitude : Int) else magnitude)
  | _ => none

/-- The double that is a multiple of the least positive one. -/
def ofUnits (n : Int) : Float :=
  if n = 0 then 0
  else
    let magnitude := Ratio.toFloat ⟨n.natAbs, Nat.pow 2 1074⟩
    if n < 0 then -magnitude else magnitude

/-- Zero with the sign of a double. -/
def zeroLike (x : Float) : Float :=
  if x < 0 || 1 / x < 0 then -0.0 else 0.0

/-- What is left of `x` after whole multiples of `y` are taken away; it has the
    sign of `x`. -/
def remainder (x y : Float) : Float :=
  match units? x, units? y with
  | some m, some n =>
    if n = 0 then 0 / 0
    else
      let rest := m.tmod n
      if rest = 0 then zeroLike x else ofUnits rest
  | some _, none => if y.isNaN then y else x
  | _, _ => 0 / 0

/-- The quotient rounded down, and the remainder with the sign of the divisor. -/
def floorDivide (x y : Float) : Float × Float :=
  let rest := remainder x y
  let quotient := (x - rest) / y
  let (quotient, rest) :=
    if rest == 0 then (quotient, zeroLike y)
    else if (y < 0) != (rest < 0) then (quotient - 1, rest + y)
    else (quotient, rest)
  if quotient == 0 then (zeroLike (x / y), rest)
  else
    let below := quotient.floor
    (if quotient - below > 0.5 then below + 1 else below, rest)

end Binary64

/-! ## Entries -/

namespace Entry

/-- The order of two doubles. -/
def orderFloats (x y : Float) : Option Ordering :=
  if x < y then some .lt else if x == y then some .eq else if y < x then some .gt else none

/-- The order of two entries; complex numbers are at most equal. -/
def order (x y : Entry) : Option Ordering :=
  match x.kind.join y.kind with
  | .complex =>
    let z := x.toComplex
    let w := y.toComplex
    if z.re == w.re && z.im == w.im then some .eq else none
  | .real => orderFloats x.toFloat y.toFloat
  | _ => some (compare x.toWord.toInt y.toWord.toInt)

/-- An operator without a rule, on two entries. -/
def unruled (op : UnruledOp) (x y : Entry) : Except Fault Entry :=
  match op, x.kind.join y.kind with
  | .compare c, _ => .ok (.truth (c.holds (x.order y)))
  | .matmul, _ | _, .complex => .error .unevaluable
  | .floordiv, .real =>
    let (a, b) := (x.toFloat, y.toFloat)
    .ok (.real (if b == 0 then a / b else (Binary64.floorDivide a b).1))
  | .mod, .real =>
    let (a, b) := (x.toFloat, y.toFloat)
    .ok (.real (if b == 0 then 0 / 0 else (Binary64.floorDivide a b).2))
  | .floordiv, _ => .ok (.whole (Int64.ofInt (x.toWord.toInt.fdiv y.toWord.toInt)))
  | .mod, _ =>
    let divisor := y.toWord.toInt
    .ok (.whole (if divisor = 0 then 0 else Int64.ofInt (x.toWord.toInt.fmod divisor)))

end Entry

/-! ## Plain numbers -/

namespace Number

/-- Where a real number stands: beyond all finite ones or not, and how many of
    the least positive doubles it is. -/
def place (v : Number) : Int × Int :=
  match v.toInt? with
  | some n => (0, n * Int.pow 2 1074)
  | none =>
    let x := v.toFloat
    match Binary64.units? x with
    | some n => (0, n)
    | none => (if x < 0 then -1 else 1, 0)

/-- The order of two numbers.  Complex numbers are at most equal. -/
def order (a b : Number) : Option Ordering :=
  let unequal := fun (v : Number) =>
    match v with
    | .complex z | .wide (.complex z) _ => z.im != 0
    | v => v.toFloat.isNaN
  if unequal a || unequal b then
    match a, b with
    | .complex z, .complex w => if z.re == w.re && z.im == w.im then some .eq else none
    | _, _ => none
  else
    let (levelA, unitsA) := a.place
    let (levelB, unitsB) := b.place
    some ((compare levelA levelB).then (compare unitsA unitsB))

/-- Is the number complex? -/
def isComplex : Number → Bool
  | .complex _ | .wide (.complex _) _ => true
  | _ => false

/-- An operator without a rule, on two plain numbers. -/
def unruled (op : UnruledOp) (a b : Number) : Except Fault Number :=
  match op, a, b with
  | .matmul, _, _ => .error .unevaluable
  | op, .wide x _, b => do ofEntry <$> Entry.unruled op x (← b.beside x.kind)
  | op, a, .wide y _ => do ofEntry <$> Entry.unruled op (← a.beside y.kind) y
  | .compare c, a, b =>
    if (a.isComplex || b.isComplex) && !c.isEquality then .error .unevaluable
    else .ok (.bool (c.holds (a.order b)))
  | op, a, b =>
    if a.isComplex || b.isComplex then .error .unevaluable
    else
      match a.toInt?, b.toInt? with
      | some m, some n =>
        if n = 0 then .error .integerByZero
        else .ok (.int (if op = .floordiv then m.fdiv n else m.fmod n))
      | _, _ => do
        let x ← a.toDouble
        let y ← b.toDouble
        if y == 0 then throw .doubleByZero
        let (quotient, rest) := Binary64.floorDivide x y
        return ofFloat (if op = .floordiv then quotient else rest)

end Number

end JetForm
