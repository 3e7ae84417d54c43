import JetForm.Number.Complex
import JetForm.Number.Fault
import JetForm.Operation.Binary

/-! # Entries of arrays

    An array holds truth values, 64-bit words, doubles or complex numbers.  Two
    entries are combined in the wider of their kinds.  Words wrap around, the
    sum of two truth values is their disjunction and their product the
    conjunction, and a quotient is at least a double.

    A power whose exponent is a word is a repeated product in the kind of its
    base, so that a word has no negative powers. -/

namespace JetForm

/-- An entry of an array. -/
inductive Entry where
  | truth (b : Bool)
  | whole (n : Int64)
  | real (x : Float)
  | complex (z : ComplexNumber)
  deriving DecidableEq

namespace Entry

instance : Inhabited Entry := ⟨.real 0⟩

instance : Hashable Entry where
  hash
    | .truth b => mixHash 3 (hash b)
    | .whole n => mixHash 5 (hash n)
    | .real x => mixHash 7 (hash x.toBits)
    | .complex z => mixHash 11 (hash z)

/-! ## Kinds -/

/-- The kinds of entries, from the narrowest to the widest. -/
inductive Kind where
  | truth
  | whole
  | real
  | complex
  deriving DecidableEq

namespace Kind

/-- Place among the kinds. -/
def rank : Kind → Nat
  | .truth => 0
  | .whole => 1
  | .real => 2
  | .complex => 3

/-- The wider one of two kinds. -/
def join (a b : Kind) : Kind :=
  if a.rank ≤ b.rank then b else a

end Kind

/-- The kind of an entry. -/
def kind : Entry → Kind
  | .truth _ => .truth
  | .whole _ => .whole
  | .real _ => .real
  | .complex _ => .complex

/-! ## Conversion -/

/-- A truth value as a word. -/
def wordOf (b : Bool) : Int64 :=
  if b then 1 else 0

/-- The entry as a word.  Only truth values and words have one; the others are
    never asked. -/
def toWord : Entry → Int64
  | .truth b => wordOf b
  | .whole n => n
  | .real _ | .complex _ => 0

/-- The entry as a double; an imaginary part is dropped. -/
def toFloat : Entry → Float
  | .truth b => if b then 1 else 0
  | .whole n => Float.ofInt n.toInt
  | .real x => x
  | .complex z => z.re

/-- The entry as a complex number. -/
def toComplex : Entry → ComplexNumber
  | .complex z => z
  | x => .ofReal x.toFloat

/-- The entry as a double, unless it is complex. -/
def toReal : Entry → Except Fault Float
  | .complex _ => .error .complexOutput
  | x => .ok x.toFloat

/-- Is the entry different from zero? -/
def isTrue : Entry → Bool
  | .truth b => b
  | .whole n => n != 0
  | .real x => x != 0
  | .complex z => !z.isZero

/-! ## Arithmetic -/

/-- Sums, differences and products of truth values. -/
def combineTruths (op : BinaryOp) (a b : Bool) : Except Fault Entry :=
  match op with
  | .plus => .ok (.truth (a || b))
  | .times => .ok (.truth (a && b))
  | _ => .error .truthArithmetic

/-- Sums, differences and products of words. -/
def combineWords (op : BinaryOp) (m n : Int64) : Int64 :=
  match op with
  | .minus => m - n
  | .times => m * n
  | _ => m + n

/-- The operation on complex numbers. -/
def combineComplex (op : BinaryOp) (z w : ComplexNumber) : ComplexNumber :=
  match op with
  | .plus => z + w
  | .minus => z - w
  | .times => z * w
  | .rdivide => z / w
  | .power => z.pow w

/-- The operation in the kind of doubles, or of complex numbers if one of the
    entries is complex. -/
def combineWide (op : BinaryOp) (x y : Entry) : Entry :=
  match x.kind.join y.kind with
  | .complex => .complex (combineComplex op x.toComplex y.toComplex)
  | _ => .real (op.ieee x.toFloat y.toFloat)

/-- A power with a whole exponent. -/
def raise (x : Entry) (n : Int) : Except Fault Entry :=
  match x with
  | .real x => .ok (.real (wholePower x n))
  | .complex z => .ok (.complex (wholePower z n))
  | x =>
    if n < 0 then .error .negativeExponent
    else .ok (.whole ((squaringPower x.toWord n.natAbs none).getD 1))

/-- A power.  Exponents that are truth values or words are whole. -/
def power (x y : Entry) : Except Fault Entry :=
  match y with
  | .truth b => raise x (if b then 1 else 0)
  | .whole n => raise x n.toInt
  | y => .ok (combineWide .power x y)

/-- A binary operation on entries. -/
def combine (op : BinaryOp) (x y : Entry) : Except Fault Entry :=
  match op with
  | .power => power x y
  | .rdivide => .ok (combineWide .rdivide x y)
  | op =>
    match x, y with
    | .truth a, .truth b => combineTruths op a b
    | x, y =>
      match x.kind.join y.kind with
      | .truth | .whole => .ok (.whole (combineWords op x.toWord y.toWord))
      | _ => .ok (combineWide op x y)

/-! ## Signs -/

/-- The sign changed; truth values have none. -/
def negate : Entry → Except Fault Entry
  | .truth _ => .error .truthArithmetic
  | .whole n => .ok (.whole (-n))
  | .real x => .ok (.real (-x))
  | .complex z => .ok (.complex (-z))

/-- The magnitude, which for the least word is the word itself. -/
def magnitude : Entry → Entry
  | .whole n => .whole (if n < 0 then -n else n)
  | .real x => .real x.abs
  | .complex z => .real z.abs
  | x => x

end Entry

end JetForm
