/-! # Newton's method

    From a guess, Newton's method repeats

        y ↦ y + solve (J y) (-R y)

    until the norm of the residual `R y` is at most the tolerance or the
    iterations are used up.  Norm, Jacobian and linear solver are parameters. -/

namespace JetForm

/-- When to stop. -/
structure NewtonSettings (K : Type) where
  tolerance : K
  maxIterations : Int

/-- Where an iteration stands: a point, its residual, and the number of
    iterations that led there. -/
structure NewtonState (V : Type) where
  point : V
  residual : V
  iterations : Nat

namespace Newton

section

variable {V M : Type} [Add V] [Neg V]

/-- The iterate after one more step. -/
def step (solve : M → V → V) (residual : V → V) (jacobian : V → M) (s : NewtonState V) :
    NewtonState V :=
  let point := s.point + solve (jacobian s.point) (-s.residual)
  ⟨point, residual point, s.iterations + 1⟩

/-- Iterate at most `count` times while `unsolved` holds of the residual. -/
def iterate (unsolved : V → Bool) (next : NewtonState V → NewtonState V) :
    Nat → NewtonState V → NewtonState V
  | 0, s => s
  | count + 1, s => if unsolved s.residual then iterate unsolved next count (next s) else s

end

variable {K V M : Type} [LT K] [DecidableLT K] [Add V] [Neg V]

/-- Is the residual too large? -/
def unsolved (settings : NewtonSettings K) (norm : V → K) (residual : V) : Bool :=
  decide (settings.tolerance < norm residual)

/-- The last iterate of Newton's method. -/
def run (settings : NewtonSettings K) (norm : V → K) (solve : M → V → V) (residual : V → V)
    (jacobian : V → M) (guess : V) : NewtonState V :=
  iterate (unsolved settings norm) (step solve residual jacobian) settings.maxIterations.toNat
    ⟨guess, residual guess, 0⟩

/-- Were all iterations used up in vain? -/
def failed (settings : NewtonSettings K) (norm : V → K) (s : NewtonState V) : Bool :=
  settings.maxIterations ≤ s.iterations && unsolved settings norm s.residual

end Newton

end JetForm
