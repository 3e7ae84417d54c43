import JetForm.Decimal.Text
import JetForm.Number.Entry

/-! # Plain numbers

    The numbers that an expression may contain: truth values, integers of any
    size, doubles, complex numbers, and the scalars of an array library, which
    are values of their own even where they print alike.  `2`, `2.0` and `True`
    are three different constants.

    Undefined doubles (NaN) need an origin: each occurrence is a value equal
    only to itself, so two of them are told apart by where they arose. -/

namespace JetForm

/-- Where an undefined number arose.  Numbers that equal themselves are `plain`. -/
inductive Origin where
  | plain
  | literal (serial : Nat)
  | quotient (arena value : Nat)
  deriving DecidableEq, Hashable

/-- A plain number.  `wide` is a scalar of an array library. -/
inductive Number where
  | bool (b : Bool)
  | int (n : Int)
  | double (x : Float) (origin : Origin)
  | complex (z : ComplexNumber)
  | wide (x : Entry) (origin : Origin)
  deriving DecidableEq

namespace Number

instance : Inhabited Number := ⟨.int 0⟩

instance : Hashable Number where
  hash
    | .bool b => mixHash 3 (hash b)
    | .int n => mixHash 5 (hash n)
    | .double x origin => mixHash 7 (mixHash (hash x.toBits) (hash origin))
    | .complex z => mixHash 11 (hash z)
    | .wide x origin => mixHash 13 (mixHash (hash x) (hash origin))

/-- A double that is not undefined, or whose origin does not matter. -/
def ofFloat (x : Float) : Number :=
  .double x .plain

/-- A scalar of an array library whose origin does not matter. -/
def ofEntry (x : Entry) : Number :=
  .wide x .plain

/-! ## Identity -/

/-- The representative of a double under `==`: both zeros are one number. -/
def canonicalZero (x : Float) : Float :=
  if x == 0 then 0 else x

/-- The same for both parts of a complex number. -/
def canonicalComplex (z : ComplexNumber) : ComplexNumber :=
  ⟨canonicalZero z.re, canonicalZero z.im⟩

/-- The representative of an entry. -/
def canonicalEntry : Entry → Entry
  | .real x => .real (canonicalZero x)
  | .complex z => .complex (canonicalComplex z)
  | x => x

/-- Two numbers are the same constant iff their keys are equal. -/
def key : Number → Number
  | .bool b => .bool b
  | .int n => .int n
  | .double x origin => .double (canonicalZero x) (if x.isNaN then origin else .plain)
  | .complex z => .complex (canonicalComplex z)
  | .wide x origin => .wide (canonicalEntry x) (if x.toFloat.isNaN then origin else .plain)

/-- Is the number equal to zero?  Undefined numbers are not. -/
def isZero : Number → Bool
  | .bool b => !b
  | .int n => n == 0
  | .double x _ => x == 0
  | .complex z => z.isZero
  | .wide x _ => !x.isTrue

/-! ## Conversion -/

/-- The nearest double; integers may leave the range and become infinite, and an
    imaginary part is dropped. -/
def toFloat : Number → Float
  | .bool b => if b then 1 else 0
  | .int n => Float.ofInt n
  | .double x _ => x
  | .complex z => z.re
  | .wide x _ => x.toFloat

/-- The integer that a number is, if it is one. -/
def toInt? : Number → Option Int
  | .bool b => some (if b then 1 else 0)
  | .int n => some n
  | .wide (.whole n) _ => some n.toInt
  | _ => none

/-- The integers that a 64-bit word holds. -/
def fitsWord (n : Int) : Bool :=
  -(Int.pow 2 63) ≤ n && n < Int.pow 2 63

/-- Is the number real?  The truth values of an array library do not count as
    numbers. -/
def isReal : Number → Bool
  | .complex _ => false
  | .wide (.complex _) _ | .wide (.truth _) _ => false
  | _ => true

/-! ## Written forms -/

/-- A real and an imaginary part; the real part is left out if it is zero. -/
def complexText (z : ComplexNumber) (bare : Bool := false) : String :=
  let imaginary := Decimal.bareText z.im
  if z.re.toBits = 0 then imaginary ++ "j"
  else
    let sign := if imaginary.startsWith "-" then "" else "+"
    let body := Decimal.bareText z.re ++ sign ++ imaginary ++ "j"
    if bare then body else "(" ++ body ++ ")"

def truthText (b : Bool) : String :=
  if b then "True" else "False"

/-- Short form: doubles with six significant digits. -/
def label : Number → String
  | .bool b => truthText b
  | .int n => toString n
  | .double x _ => Decimal.general x
  | .complex z => complexText z
  | .wide (.truth b) _ => truthText b
  | .wide (.whole n) _ => toString n.toInt
  | .wide (.real x) _ => Decimal.general x
  | .wide (.complex z) _ => complexText z

/-- Full form, which names the kind of an array library's scalar. -/
def exactText : Number → String
  | .bool b => truthText b
  | .int n => toString n
  | .double x _ => Decimal.exactText x
  | .complex z => complexText z
  | .wide (.truth b) _ => "np." ++ truthText b ++ "_"
  | .wide (.whole n) _ => "np.int64(" ++ toString n.toInt ++ ")"
  | .wide (.real x) _ => "np.float64(" ++ Decimal.exactText x ++ ")"
  | .wide (.complex z) _ => "np.complex128(" ++ complexText z true ++ ")"

/-- Name of the kind of number. -/
def typeName : Number → String
  | .bool _ => "bool"
  | .int _ => "int"
  | .double _ _ => "float"
  | .complex _ => "complex"
  | .wide x _ =>
    match x with
    | .truth _ => "bool"
    | .whole _ => "int64"
    | .real _ => "float64"
    | .complex _ => "complex128"

end Number

end JetForm
