import JetForm.Numerics.Linear

/-! # Finite differences

    The Jacobian of a function is estimated by forward differences, one column
    for each entry that is moved.  The increment grows with the entry, so that
    it is not lost in rounding. -/

namespace JetForm

namespace Difference

variable {K : Type} {n : Nat} [Zero K] [One K] [Neg K] [Add K] [Sub K] [Mul K] [Div K]
  [LT K] [DecidableLT K] [LE K] [DecidableLE K]

/-- The increment of an entry `y`. -/
def increment (eps y : K) : K :=
  eps * larger 1 (magnitude y)

/-- The vector with one entry moved. -/
def moved (y : Vector K n) (j : Fin n) (h : K) : Vector K n :=
  Vector.ofFn fun k => y[k] + (if k = j then h else 0)

/-- Entry `(i, j)` estimates the derivative of component `i` with respect to
    entry `j`. -/
def jacobian (eps : K) (f : Vector K n → Vector K n) (y : Vector K n) : Matrix K n n :=
  let base := f y
  let columns := Vector.ofFn fun (j : Fin n) =>
    let h := increment eps y[j]
    (f (moved y j h)).zipWith (fun after before => (after - before) / h) base
  Matrix.ofFn fun i j => columns[j][i]

end Difference

end JetForm
