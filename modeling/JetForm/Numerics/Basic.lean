import JetForm.Numerics.Difference
import JetForm.Numerics.Newton

/-! # Numerical choices

    What a scalar needs beyond its arithmetic: a norm of vectors, a solver for
    linear systems, and the relative increment of finite differences. -/

namespace JetForm

/-- The choices for one kind of scalar. -/
structure Numerics (K : Type) where
  norm : {n : Nat} → Vector K n → K
  solve : {n : Nat} → Matrix K n n → Vector K n → Vector K n
  eps : K

namespace Numerics

/-- Doubles: the Euclidean norm, elimination with pivoting, and the square root
    of the distance from one to the next double. -/
def double : Numerics Float where
  norm x := (x.toList.foldl (fun sum v => sum + v * v) 0).sqrt
  solve := Linear.solve
  eps := 1.4901161193847656e-08

end Numerics

end JetForm
