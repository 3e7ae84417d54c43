import JetForm.Numerics.Difference
import JetForm.Program.Field

/-! # Sensitivity of a field

    How a field changes with each entry of the state, estimated by forward
    differences: one call moves all entries in turn, and its states are stacked
    along a new first axis.

    The estimate is meant for a single state, where it is the Jacobian matrix.
    Times and states with more axes are broadcast like everywhere else, as far
    as their shapes permit. -/

namespace JetForm

namespace Sensitivity

variable {K : Type} [Zero K]

/-- Combine two tensors entry by entry, unless their shapes clash. -/
def combine (f : K → K → K) (x y : Tensor K) : Except Error (Tensor K) :=
  match Tensor.zip 0 0 f x y with
  | some z => .ok z
  | none => .error (.fault (if x.shape.length = y.shape.length then .extents else .shapes))

/-- The estimate for a function of tensors of states. -/
def ofFunction [One K] [Neg K] [Add K] [Sub K] [Mul K] [Div K] [LT K] [DecidableLT K] [LE K]
    [DecidableLE K] (eps : K) (f : Tensor K → Except Error (Tensor K)) (y : Tensor K) :
    Except Error (Tensor K) := do
  let increments := y.map (Difference.increment eps)
  let before ← f y
  let some moves := increments.diagonal? 0 | throw (.fault .shapes)
  let after ← f (← combine (· + ·) (y.insertAxis 0) moves)
  let change ← combine (· - ·) after (before.insertAxis 0)
  Tensor.transpose 0 <$> combine (· / ·) change (increments.insertAxis 1)

end Sensitivity

/-- The estimate for a field, multiplied by a rate if one is given. -/
def VectorField.sensitivity (f : VectorField) (rate : Option Float) (eps : Float)
    (t y : Tensor Float) : Except Error (Tensor Float) :=
  Sensitivity.ofFunction eps (fun y => do
    let v ← f.call t y
    return v.map fun x => rate.elim x (· * x)) y

end JetForm
