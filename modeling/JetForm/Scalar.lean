/-! # Scalars

    Numerical parts are written once for all scalars: doubles when a program
    runs, and the elements of an ordered field when its exact behaviour is
    studied.  They use nothing but the arithmetic signs, the order, and the
    few functions below.

    An undefined double is neither above nor below any other.  The functions
    keep it wherever it could matter. -/

namespace JetForm

instance zeroFloat : Zero Float := ⟨0⟩

instance oneFloat : One Float := ⟨1⟩

/-- The double nearest to π. -/
def pi : Float := 3.141592653589793

section

variable {K : Type} [Zero K] [LT K] [DecidableLT K]

/-- The absolute value. -/
def magnitude [Neg K] (x : K) : K :=
  if x < 0 then -x else x

/-- The sign: -1, 0 or 1. -/
def signOf (x : K) : Int :=
  if x < 0 then -1 else if 0 < x then 1 else 0

end

section

variable {K : Type} [LE K] [DecidableLE K]

/-- The larger of two scalars; the second one if they cannot be compared. -/
def larger (x y : K) : K :=
  if y ≤ x then x else y

/-- The smaller of two scalars; the second one if they cannot be compared. -/
def smaller (x y : K) : K :=
  if x ≤ y then x else y

end

section

variable {K : Type} [Mul K]

/-- The product of `acc` and `x ^ n` by repeated squaring, nothing if there are
    no factors. -/
def squaringPower (x : K) (n : Nat) (acc : Option K) : Option K :=
  if n = 0 then acc
  else
    squaringPower (x * x) (n / 2)
      (if n % 2 = 1 then some (acc.elim x (· * x)) else acc)
termination_by n

/-- A power with a whole exponent. -/
def wholePower [One K] [Div K] (x : K) (n : Int) : K :=
  let y := (squaringPower x n.natAbs none).getD 1
  if n < 0 then 1 / y else y

end

end JetForm
