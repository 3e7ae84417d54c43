import JetForm.Operation.Kernel

/-! # External values

    What enters an expression without being traced: plain numbers, and
    functions of the independent variable.  A function is known by its name and
    its law; it may carry breakpoints, the points where it jumps. -/

namespace JetForm

/-- How an external function depends on the independent variable. -/
inductive Law where
  /-- `c₀ + c₁ t + c₂ t² + …`. -/
  | polynomial (coefficients : List Float)
  /-- `lo` before the point `at`, and `hi` from there on. -/
  | step (at_ lo hi : Float)
  | constant (c : Float)
  /-- An elementary function. -/
  | kernel (op : UnaryOp)
  /-- The greatest of the times that are given together.  It has no value at a
      time by itself. -/
  | greatest
  /-- No function at all, but a thing of some type.  Its serial number tells it
      from others. -/
  | inert (type : String) (serial : Nat)
  deriving DecidableEq

namespace Law

/-- The value of a polynomial, highest coefficient first.  The first step
    multiplies the point by zero, so that an infinite point has no value. -/
def valueOfPolynomial (coefficients : List Float) (t : Float) : Float :=
  match coefficients.reverse with
  | [] => 0
  | c :: rest => rest.foldl (fun sum c => sum * t + c) (c + 0 * t)

/-- The function itself, if it has a value at every point. -/
def function? : Law → Option (Float → Float)
  | .polynomial coefficients => some (valueOfPolynomial coefficients)
  | .step at_ lo hi => some fun t => if t < at_ then lo else hi
  | .constant c => some fun _ => c
  | .kernel op => some fun t =>
    match op.onEntry (.real t) with
    | .ok y => y.toFloat
    | .error _ => 0 / 0
  | .greatest | .inert .. => none

end Law

/-- A function of the independent variable. -/
structure External where
  name : String
  law : Law
  breakpoints : Option (List Float)
  deriving DecidableEq

instance : Hashable External where
  hash f := hash f.name

/-- A plain number or an external function. -/
inductive Value where
  | number (n : Number)
  | external (f : External)
  deriving DecidableEq

namespace Value

instance : Inhabited Value := ⟨.number default⟩

instance : Hashable Value where
  hash
    | .number n => mixHash 13 (hash n)
    | .external f => mixHash 17 (hash f)

/-- Two values are the same constant iff their keys are equal. -/
def key : Value → Value
  | .number n => .number n.key
  | .external f => .external f

/-- Is the value a plain number? -/
def isNumber : Value → Bool
  | .number _ => true
  | .external _ => false

/-- Short written form. -/
def label : Value → String
  | .number n => n.label
  | .external f => f.name

end Value

end JetForm
