import JetForm.Integrate.BackwardEuler
import JetForm.Integrate.Steps
import JetForm.Integrate.Tableau
import JetForm.Numerics.Basic

/-! # Stepping methods -/

namespace JetForm

/-- A one-step method for states with `n` entries: an explicit Runge-Kutta
    method under a name, or backward Euler with the Jacobian of the field if
    that is known. -/
inductive Method (K : Type) (n : Nat) where
  | explicit (name : String) (tableau : Tableau K)
  | backwardEuler (newton : NewtonSettings K) (jacobian : Option (K → Vector K n → Matrix K n n))

namespace Method

variable {K : Type} {n : Nat}

/-- Name of the method. -/
def name : Method K n → String
  | .explicit name _ => name
  | .backwardEuler _ _ => "BackwardEuler"

/-- Order of accuracy, where one is declared. -/
def order : Method K n → Option Int
  | .explicit _ tableau => some tableau.order
  | .backwardEuler _ _ => none

section

variable [Zero K] [One K] [Neg K] [Add K] [Sub K] [Mul K] [Div K] [BEq K] [LT K] [DecidableLT K]
  [LE K] [DecidableLE K]

/-- Steps along a field.  Beside the state, the number of Newton solves that
    failed is kept. -/
def advance (N : Numerics K) (m : Method K n) (f : K → Vector K n → Vector K n) :
    Stepper K (Vector K n × Nat) :=
  match m with
  | .explicit _ tableau => fun t (y, failures) h => (tableau.step f t y h, failures)
  | .backwardEuler newton jacobian => fun t (y, failures) h =>
    let fieldJacobian := jacobian.getD fun t z => Difference.jacobian N.eps (f t) z
    let last := BackwardEuler.step newton N.norm N.solve fieldJacobian f t y h
    (last.point, failures + if Newton.failed newton N.norm last then 1 else 0)

end

/-! ## Named methods -/

section

variable [Zero K] [One K] [Add K] [Div K]

def forwardEuler : Method K n :=
  .explicit "ForwardEuler" .euler

def midpoint : Method K n :=
  .explicit "Midpoint" .midpoint

def heun : Method K n :=
  .explicit "Heun" .heun

def classic : Method K n :=
  .explicit "RK4" .classic

end

end Method

namespace NewtonSettings

/-- The settings used where none are given. -/
def standard : NewtonSettings Float :=
  ⟨1e-6, 50⟩

end NewtonSettings

end JetForm
