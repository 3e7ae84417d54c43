import JetForm.Error
import JetForm.Scalar

/-! # Explicit Runge-Kutta methods

    A tableau lists the weights of an explicit Runge-Kutta method.  A step
    evaluates the field at

        k_i = f (t + c_i h) (y + h * (a_i1 k_1 + … + a_i(i-1) k_(i-1)))

    and moves to `y + h * (b_1 k_1 + … + b_s k_s)`.  Zero weights are skipped. -/

namespace JetForm

/-- Weights of an explicit method: row `i` of `a` has `i` entries. -/
structure Tableau (K : Type) where
  a : List (List K)
  b : List K
  c : List K
  order : Int

namespace Tableau

variable {K : Type}

/-- Number of stages. -/
def stages (tab : Tableau K) : Nat :=
  tab.b.length

/-! ## Checks -/

section

variable [Zero K] [One K] [Neg K] [Add K] [Sub K] [LT K] [DecidableLT K]

/-- Is the sum of some weights off its value by more than the tolerance? -/
def isOff (tolerance : K) (weights : List K) (total : K) : Bool :=
  decide (tolerance < magnitude (weights.foldl (· + ·) 0 - total))

/-- Check the rows from number `i` on, each with its stage time. -/
def checkRows (tolerance : K) : Nat → List (List K × K) → Except (TableauError K) Unit
  | _, [] => .ok ()
  | i, (row, stage) :: rest =>
    if row.length ≠ i then .error (.rowLength i)
    else if isOff tolerance row stage then .error (.rowSum i stage)
    else checkRows tolerance (i + 1) rest

/-- Every row sums to its stage time and the final weights to one. -/
def check (tolerance : K) (tab : Tableau K) : Except (TableauError K) Unit := do
  if tab.a.length ≠ tab.stages ∨ tab.c.length ≠ tab.stages then throw (.counts tab.stages)
  checkRows tolerance 0 (tab.a.zip tab.c)
  if isOff tolerance tab.b 1 then throw .weights

end

/-- A tableau with double weights, which must sum up to twelve places. -/
def create (a : List (List Float)) (b c : List Float) (order : Int) :
    Except Error (Tableau Float) :=
  let tab : Tableau Float := ⟨a, b, c, order⟩
  match tab.check 1e-12 with
  | .ok _ => .ok tab
  | .error e => .error (.tableau e)

/-! ## Named methods -/

section

variable [Zero K] [One K] [Add K] [Div K]

def two : K := 1 + 1

def half : K := 1 / two

def third : K := 1 / (two + 1)

def sixth : K := 1 / (two + two + two)

/-- Forward Euler. -/
def euler : Tableau K :=
  ⟨[[]], [1], [0], 1⟩

/-- The explicit midpoint rule. -/
def midpoint : Tableau K :=
  ⟨[[], [half]], [0, 1], [0, half], 2⟩

/-- The explicit trapezoidal rule. -/
def heun : Tableau K :=
  ⟨[[], [1]], [half, half], [0, 1], 2⟩

/-- The classical method of order four. -/
def classic : Tableau K :=
  ⟨[[], [half], [0, half], [0, 0, 1]], [sixth, third, third, sixth], [0, half, half, 1], 4⟩

end

/-! ## Steps -/

section

variable {V : Type} [Zero K] [Add K] [Mul K] [BEq K] [Zero V] [Add V] [SMul K V]

/-- Add a weighted sum, with all weights scaled and zero weights skipped. -/
def addWeighted (scale : K → K) (start : V) (weights : List K) (ks : List V) : V :=
  (weights.zip ks).foldl (fun y (w, k) => if w == 0 then y else y + scale w • k) start

/-- The stages of a step, after those that are known already. -/
def stageValues (f : K → V → V) (t : K) (y : V) (h : K) : List (List K × K) → List V → List V
  | [], ks => ks
  | (row, stage) :: rest, ks =>
    let k := f (t + stage * h) (addWeighted (· * h) y row ks)
    stageValues f t y h rest (ks ++ [k])

/-- One step from `(t, y)` of size `h`. -/
def step (tab : Tableau K) (f : K → V → V) (t : K) (y : V) (h : K) : V :=
  let ks := stageValues f t y h (tab.a.zip tab.c) []
  y + h • addWeighted id 0 tab.b ks

end

end Tableau

end JetForm
