import JetForm.Operation.Unary
import JetForm.Operation.Airy
import JetForm.Operation.Circular
import JetForm.Number.Arithmetic

/-! # Numerical kernels

    A kernel evaluates a unary operation on an entry.  The signs and the
    magnitude keep the kind of the entry.  Every other operation is a function
    on doubles, and on complex numbers where the entry is complex.  The
    reciprocal functions and those in degrees are built around a base function:
    the argument may be inverted or converted first, the result afterwards.

    On a plain number the inversion of the argument follows the arithmetic of
    plain numbers, so `acot 0` fails where the entry `0.0` of an array gives a
    value. -/

namespace JetForm

/-! ## Functions that the core library lacks -/

/-- `exp x - 1` without cancellation near zero. -/
def expm1 (x : Float) : Float :=
  let u := x.exp
  if u == 1 then x
  else if u.isInf then u
  else if u - 1 == -1 then -1
  else (u - 1) * (x / u.log)

/-- `log (1 + x)` without cancellation near zero. -/
def log1p (x : Float) : Float :=
  let u := 1 + x
  if u == 1 then x
  else if u.isInf then u.log
  else u.log * (x / (u - 1))

/-! ## Base functions -/

/-- A function on doubles, and its continuation to complex numbers. -/
structure BaseFunction where
  real : Float → Float
  complex : ComplexNumber → ComplexNumber

namespace BaseFunction

def acos : BaseFunction := ⟨Float.acos, ComplexNumber.acos⟩

def acosh : BaseFunction := ⟨Float.acosh, ComplexNumber.acosh⟩

/-- The Airy function; complex arguments have no value here. -/
def airy : BaseFunction := ⟨JetForm.airy, fun _ => ⟨0 / 0, 0 / 0⟩⟩

def asin : BaseFunction := ⟨Float.asin, ComplexNumber.asin⟩

def asinh : BaseFunction := ⟨Float.asinh, ComplexNumber.asinh⟩

def atan : BaseFunction := ⟨Float.atan, ComplexNumber.atan⟩

def atanh : BaseFunction := ⟨Float.atanh, ComplexNumber.atanh⟩

def cos : BaseFunction := ⟨Circular.cosine, ComplexNumber.cos⟩

def cosh : BaseFunction := ⟨Float.cosh, ComplexNumber.cosh⟩

def exp : BaseFunction := ⟨Float.exp, ComplexNumber.exp⟩

def exp2 : BaseFunction := ⟨Float.exp2, fun z => (z.scale (Float.log 2)).exp⟩

def expm1 : BaseFunction := ⟨JetForm.expm1, ComplexNumber.expm1⟩

def log : BaseFunction := ⟨Float.log, ComplexNumber.log⟩

def log10 : BaseFunction := ⟨Float.log10, fun z => z.log.scale (1 / Float.log 10)⟩

def log2 : BaseFunction := ⟨Float.log2, fun z => z.log.scale (1 / Float.log 2)⟩

def log1p : BaseFunction := ⟨JetForm.log1p, ComplexNumber.log1p⟩

def sin : BaseFunction := ⟨Circular.sine, ComplexNumber.sin⟩

def sinh : BaseFunction := ⟨Float.sinh, ComplexNumber.sinh⟩

def sqrt : BaseFunction := ⟨Float.sqrt, ComplexNumber.sqrt⟩

def tan : BaseFunction := ⟨Float.tan, ComplexNumber.tan⟩

def tanh : BaseFunction := ⟨Float.tanh, ComplexNumber.tanh⟩

end BaseFunction

/-- Radians in a degree. -/
def degree : Float :=
  pi / 180

/-- Degrees in a radian. -/
def radian : Float :=
  180 / pi

/-! ## Kernels -/

/-- A base function with the conversions around it. -/
structure Kernel where
  base : BaseFunction
  invertsArgument : Bool
  takesDegrees : Bool
  invertsResult : Bool
  givesDegrees : Bool

namespace Kernel

/-- The base function alone. -/
def direct (f : BaseFunction) : Kernel :=
  ⟨f, false, false, false, false⟩

/-- `f (1 / x)`. -/
def ofReciprocal (f : BaseFunction) : Kernel :=
  { direct f with invertsArgument := true }

/-- `1 / f x`. -/
def reciprocal (f : BaseFunction) : Kernel :=
  { direct f with invertsResult := true }

/-- The same kernel for an argument in degrees. -/
def inDegrees (k : Kernel) : Kernel :=
  { k with takesDegrees := true }

/-- The same kernel with a result in degrees. -/
def toDegrees (k : Kernel) : Kernel :=
  { k with givesDegrees := true }

/-- Everything behind the inversion of the argument, on doubles. -/
def finishReal (k : Kernel) (x : Float) : Float :=
  let y := k.base.real (if k.takesDegrees then x * degree else x)
  let z := if k.invertsResult then 1 / y else y
  if k.givesDegrees then z * radian else z

/-- Everything behind the inversion of the argument, on complex numbers. -/
def finishComplex (k : Kernel) (x : ComplexNumber) : ComplexNumber :=
  let y := k.base.complex (if k.takesDegrees then x.scale degree else x)
  let z := if k.invertsResult then 1 / y else y
  if k.givesDegrees then z.scale radian else z

/-- Everything behind the inversion of the argument. -/
def finish (k : Kernel) : Entry → Entry
  | .complex z => .complex (k.finishComplex z)
  | x => .real (k.finishReal x.toFloat)

/-- The value at an array entry. -/
def onEntry (k : Kernel) (x : Entry) : Entry :=
  k.finish (if k.invertsArgument then Entry.combineWide .rdivide (.real 1) x else x)

/-- The value at a plain number. -/
def onNumber (k : Kernel) (v : Number) : Except Fault Entry :=
  if k.invertsArgument then do
    let r ← v.reciprocal
    return k.finish (← r.toEntry)
  else return k.finish (← v.toEntry)

end Kernel

/-! ## Operations -/

/-- What an operation does to an entry. -/
inductive UnaryAction where
  | magnitude
  | negation
  | identity
  | kernel (k : Kernel)

/-- The action of each operation. -/
def UnaryOp.action : UnaryOp → UnaryAction
  | .abs => .magnitude
  | .uminus => .negation
  | .uplus => .identity
  | .acos => .kernel (.direct .acos)
  | .acosd => .kernel (Kernel.direct .acos).toDegrees
  | .acosh => .kernel (.direct .acosh)
  | .acot => .kernel (.ofReciprocal .atan)
  | .acoth => .kernel (.ofReciprocal .atanh)
  | .acsc => .kernel (.ofReciprocal .asin)
  | .acscd => .kernel (Kernel.ofReciprocal .asin).toDegrees
  | .acsch => .kernel (.ofReciprocal .asinh)
  | .airy => .kernel (.direct .airy)
  | .asec => .kernel (.ofReciprocal .acos)
  | .asecd => .kernel (Kernel.ofReciprocal .acos).toDegrees
  | .asech => .kernel (.ofReciprocal .acosh)
  | .asin => .kernel (.direct .asin)
  | .asind => .kernel (Kernel.direct .asin).toDegrees
  | .asinh => .kernel (.direct .asinh)
  | .atan => .kernel (.direct .atan)
  | .atand => .kernel (Kernel.direct .atan).toDegrees
  | .atanh => .kernel (.direct .atanh)
  | .cos => .kernel (.direct .cos)
  | .cosd => .kernel (Kernel.direct .cos).inDegrees
  | .cosh => .kernel (.direct .cosh)
  | .cot => .kernel (.reciprocal .tan)
  | .cotd => .kernel (Kernel.reciprocal .tan).inDegrees
  | .coth => .kernel (.reciprocal .tanh)
  | .csc => .kernel (.reciprocal .sin)
  | .cscd => .kernel (Kernel.reciprocal .sin).inDegrees
  | .csch => .kernel (.reciprocal .sinh)
  | .exp => .kernel (.direct .exp)
  | .expm1 => .kernel (.direct .expm1)
  | .log => .kernel (.direct .log)
  | .log10 => .kernel (.direct .log10)
  | .log2 => .kernel (.direct .log2)
  | .log1p => .kernel (.direct .log1p)
  | .pow2 => .kernel (.direct .exp2)
  | .sec => .kernel (.reciprocal .cos)
  | .secd => .kernel (Kernel.reciprocal .cos).inDegrees
  | .sech => .kernel (.reciprocal .cosh)
  | .sin => .kernel (.direct .sin)
  | .sind => .kernel (Kernel.direct .sin).inDegrees
  | .sinh => .kernel (.direct .sinh)
  | .sqrt => .kernel (.direct .sqrt)
  | .tan => .kernel (.direct .tan)
  | .tand => .kernel (Kernel.direct .tan).inDegrees
  | .tanh => .kernel (.direct .tanh)

namespace UnaryOp

/-- Does the operation begin with the inverse of its argument? -/
def invertsArgument (op : UnaryOp) : Bool :=
  match op.action with
  | .kernel k => k.invertsArgument
  | _ => false

/-- The value of an operation at an array entry. -/
def onEntry (op : UnaryOp) (x : Entry) : Except Fault Entry :=
  match op.action with
  | .magnitude => .ok x.magnitude
  | .negation => x.negate
  | .identity => .ok x
  | .kernel k => .ok (k.onEntry x)

/-- The value of an operation at a plain number, as an entry. -/
def onNumber (op : UnaryOp) (v : Number) : Except Fault Entry :=
  match op.action with
  | .kernel k => k.onNumber v
  | _ => v.toEntry.bind op.onEntry

end UnaryOp

end JetForm
