import JetForm.Number.Basic

/-! # Arithmetic between plain numbers

    Two plain numbers are combined exactly where they are integers (a truth
    value counts as 0 or 1), as complex numbers where one of them is complex,
    and as doubles otherwise.  Unlike the arithmetic of array entries it can
    fail: a division by zero, an integer without a nearby double and a power out
    of range are faults.

    Once a scalar of an array library takes part, the rules for entries apply.
    An integer beside a word has to fit into one, and a word has no negative
    powers. -/

namespace JetForm

namespace Number

/-! ## Doubles -/

/-- The nearest double of a number; complex numbers have none, and neither do
    the integers whose nearest double would be infinite. -/
def toDouble (v : Number) : Except Fault Float :=
  match v with
  | .int n => let x := Float.ofInt n; if x.isFinite then .ok x else .error .integerTooLarge
  | .complex _ => .error .complexToDouble
  | v => .ok v.toFloat

/-- The true quotient of two integers, rounded once. -/
def integerQuotient (a b : Int) : Except Fault Float :=
  if b = 0 then .error .integerByZero
  else
    let magnitude := if a = 0 then 0 else Ratio.toFloat ⟨a.natAbs, b.natAbs⟩
    if magnitude.isFinite then .ok (if (a < 0) != (b < 0) then -magnitude else magnitude)
    else .error .quotientTooLarge

/-- A complex number unless it is too large. -/
def boundedComplex (z : ComplexNumber) : Except Fault Number :=
  if z.re.isInf || z.im.isInf then .error .complexPowerTooLarge else .ok (.complex z)

/-- A power of plain doubles.  A negative number with a fractional exponent has
    a complex one. -/
def doublePower (x y : Float) : Except Fault Number :=
  if x == 0 && y < 0 then .error .zeroToNegative
  else if x < 0 && x.isFinite && y.isFinite && y != y.floor then
    boundedComplex (.polar (x.abs ^ y) (pi * y))
  else
    let z := x ^ y
    if z.isInf && x.isFinite && y.isFinite then .error .powerTooLarge else .ok (ofFloat z)

/-! ## Complex numbers -/

/-- A complex number from a number of any kind. -/
def toComplex (v : Number) : Except Fault ComplexNumber :=
  match v with
  | .complex z => .ok z
  | v => ComplexNumber.ofReal <$> v.toDouble

/-- A quotient of complex numbers. -/
def complexQuotient (z w : ComplexNumber) : Except Fault Number :=
  if w.isZero then .error .complexByZero else .ok (.complex (z / w))

/-- The product of `n` equal factors. -/
def complexProduct (z : ComplexNumber) (n : Nat) : ComplexNumber :=
  (squaringPower z n (some 1)).getD 1

/-- A power of complex numbers.  Whole exponents of moderate size stand for
    products. -/
def complexPower (z w : ComplexNumber) : Except Fault Number :=
  let y := w.re
  if w.im == 0 && y == y.floor && y.abs ≤ 100 then
    if 0 < y then boundedComplex (complexProduct z y.toUInt64.toNat)
    else
      let divisor := complexProduct z (-y).toUInt64.toNat
      if divisor.isZero then .error .complexZeroToNegative else boundedComplex (1 / divisor)
  else if z.isZero && !w.isZero then
    if w.im != 0 || w.re < 0 then .error .complexZeroToNegative else .ok (.complex 0)
  else boundedComplex (z.pow w)

/-- An operation on two complex numbers. -/
def combineComplex (op : BinaryOp) (z w : ComplexNumber) : Except Fault Number :=
  match op with
  | .rdivide => complexQuotient z w
  | .power => complexPower z w
  | op => .ok (.complex (Entry.combineComplex op z w))

/-! ## Operations -/

/-- An operation on two integers. -/
def combineIntegers (op : BinaryOp) (a b : Int) : Except Fault Number :=
  match op with
  | .plus => .ok (.int (a + b))
  | .minus => .ok (.int (a - b))
  | .times => .ok (.int (a * b))
  | .rdivide => (integerQuotient a b).map ofFloat
  | .power =>
    if 0 ≤ b then .ok (.int (Int.pow a b.toNat))
    else do
      let x ← toDouble (.int a)
      let y ← toDouble (.int b)
      doublePower x y

/-- An operation on two doubles. -/
def combineDoubles (op : BinaryOp) (x y : Float) : Except Fault Number :=
  match op with
  | .rdivide => if y == 0 then .error .doubleByZero else .ok (ofFloat (x / y))
  | .power => doublePower x y
  | op => .ok (ofFloat (op.ieee x y))

/-- The kind of entry that a number of an expression counts as. -/
def entryKind : Number → Entry.Kind
  | .bool _ => .truth
  | .int _ => .whole
  | .double _ _ => .real
  | .complex _ => .complex
  | .wide x _ => x.kind

/-- The number as a scalar beside one of the given kind: beside doubles an
    integer is a double, and beside words it has to fit into one. -/
def beside (kind : Entry.Kind) (v : Number) : Except Fault Entry :=
  match v with
  | .bool b => .ok (.truth b)
  | .int n =>
    match kind with
    | .real | .complex => .real <$> toDouble (.int n)
    | _ => if fitsWord n then .ok (.whole (Int64.ofInt n)) else .error (.outOfWord n)
  | .double x _ => .ok (.real x)
  | .complex z => .ok (.complex z)
  | .wide x _ => .ok x

/-- A binary operation on scalars of an array library.  Powers of doubles are
    never products. -/
def combineScalars (op : BinaryOp) (x y : Entry) : Except Fault Entry :=
  match op, x.kind.join y.kind with
  | .power, .real => .ok (.real (op.ieee x.toFloat y.toFloat))
  | .power, .truth | .power, .whole =>
    if y.toWord < 0 then .error .negativeScalarExponent else Entry.combine op x y
  | op, _ => Entry.combine op x y

/-- An operation on two plain numbers. -/
def combine (op : BinaryOp) (a b : Number) : Except Fault Number :=
  match a, b with
  | .wide _ _, _ | _, .wide _ _ => do
    let x ← a.beside b.entryKind
    let y ← b.beside a.entryKind
    ofEntry <$> combineScalars op x y
  | .complex _, _ | _, .complex _ => do
    let z ← a.toComplex
    let w ← b.toComplex
    combineComplex op z w
  | a, b =>
    match a.toInt?, b.toInt? with
    | some m, some n => combineIntegers op m n
    | _, _ => do
      let x ← a.toDouble
      let y ← b.toDouble
      combineDoubles op x y

/-! ## Signs -/

/-- The number with its sign changed; truth values become integers. -/
def negate : Number → Except Fault Number
  | .bool b => .ok (.int (if b then -1 else 0))
  | .int n => .ok (.int (-n))
  | .double x origin => .ok (.double (-x) origin)
  | .complex z => .ok (.complex (-z))
  | .wide x origin => (Number.wide · origin) <$> x.negate

/-- The number itself; truth values become integers. -/
def positive : Number → Except Fault Number
  | .bool b => .ok (.int (if b then 1 else 0))
  | .wide (.truth _) _ => .error .truthArithmetic
  | n => .ok n

/-- The magnitude; truth values become integers. -/
def absolute : Number → Except Fault Number
  | .bool b => .ok (.int (if b then 1 else 0))
  | .int n => .ok (.int n.natAbs)
  | .double x origin => .ok (.double x.abs origin)
  | .complex z =>
    let length := z.abs
    if length.isInf && z.re.isFinite && z.im.isFinite then .error .magnitudeTooLarge
    else .ok (ofFloat length)
  | .wide x origin => .ok (.wide x.magnitude origin)

/-- `1 / v`. -/
def reciprocal (v : Number) : Except Fault Number :=
  combine .rdivide (ofFloat 1) v

/-! ## Numbers beside arrays -/

/-- The number as an entry of an array. -/
def toEntry : Number → Except Fault Entry
  | .bool b => .ok (.truth b)
  | .int n => if fitsWord n then .ok (.whole (Int64.ofInt n)) else .error .wordTooSmall
  | .double x _ => .ok (.real x)
  | .complex z => .ok (.complex z)
  | .wide x _ => .ok x

/-- An operation between an entry and a plain number on its right.  A power with
    a whole exponent is a product, and the exponent may have any size. -/
def rightOf (op : BinaryOp) (v : Number) : Except Fault (Entry → Except Fault Entry) :=
  match op, v.toInt? with
  | .power, some n => .ok fun x => x.raise n
  | op, _ => (fun y x => Entry.combine op x y) <$> v.toEntry

end Number

end JetForm
