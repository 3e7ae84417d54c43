import JetForm.Numerics.Difference
import JetForm.Numerics.Newton

/-! # The backward Euler method

    A step from `(t, y)` of size `h` solves

        z - y - h f (t + h) z = 0

    for the new state `z` by Newton's method.  The guess is a forward step, and
    the Jacobian of the left-hand side is the identity minus `h` times the
    Jacobian of the field. -/

namespace JetForm

namespace BackwardEuler

variable {K : Type} {n : Nat} [Zero K] [One K] [Neg K] [Add K] [Sub K] [Mul K]

/-- What a step has to make zero. -/
def residual (f : K → Vector K n → Vector K n) (t : K) (y : Vector K n) (h : K)
    (z : Vector K n) : Vector K n :=
  z - y - h • f (t + h) z

/-- The Jacobian of the residual, given that of the field. -/
def residualJacobian (fieldJacobian : K → Vector K n → Matrix K n n) (t h : K)
    (z : Vector K n) : Matrix K n n :=
  let J := fieldJacobian (t + h) z
  Matrix.ofFn fun i j => (if i = j then 1 else 0) - h * (J.get i).get j

/-- The forward step from which the search starts. -/
def guess (f : K → Vector K n → Vector K n) (t : K) (y : Vector K n) (h : K) : Vector K n :=
  y + h • f t y

/-- One step, with the last Newton iterate as the new state. -/
def step [LT K] [DecidableLT K] (settings : NewtonSettings K) (norm : Vector K n → K)
    (solve : Matrix K n n → Vector K n → Vector K n)
    (fieldJacobian : K → Vector K n → Matrix K n n) (f : K → Vector K n → Vector K n) (t : K)
    (y : Vector K n) (h : K) : NewtonState (Vector K n) :=
  Newton.run settings norm solve (residual f t y h) (residualJacobian fieldJacobian t h)
    (guess f t y h)

end BackwardEuler

end JetForm
