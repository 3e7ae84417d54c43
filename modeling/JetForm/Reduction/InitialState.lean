import JetForm.Numerics.Basic
import JetForm.Program.Field
import JetForm.Reduction.Conditions
import JetForm.Reduction.Options
import JetForm.Reduction.Substitute

/-! # The state at the conditions

    The sorted conditions become a residual `g y`, one component for each state
    entry.  Its zero, found by Newton's method with finite differences, is the
    state at the end of the domain where the conditions hold. -/

namespace JetForm

namespace InitialState

/-- The residual of the conditions as a field. -/
def residualField (conditions : SortedConditions) (r : Registry) (slots : SlotTable) :
    Building VectorField := do
  let handles := conditions.conditions.map Condition.handle
  let roots ← (handles.mapM (Substitute.root r slots)).run' ∅
  let a ← get
  MonadExcept.ofExcept do
    VectorField.create (← Program.ofTrees a roots) slots.size

section

variable {K : Type} [Zero K] [One K] [Neg K] [Add K] [Sub K] [Mul K] [Div K] [LT K]
  [DecidableLT K] [LE K] [DecidableLE K]

/-- Solve `g t y = 0` for the state `y`. -/
def solve (N : Numerics K) (settings : NewtonSettings K) {n : Nat}
    (g : K → Vector K n → Vector K n) (t : K) (guess : Vector K n) : NewtonState (Vector K n) :=
  Newton.run settings N.norm N.solve (g t) (Difference.jacobian N.eps (g t)) guess

end

/-- The state that satisfies the conditions, and whether the search failed to
    come close.  Without a guess it starts from zero. -/
def find (conditions : SortedConditions) (r : Registry) (slots : SlotTable)
    (options : ReductionOptions) (guess : Option (List Float)) :
    Building (List Float × Bool) := do
  let g ← residualField conditions r slots
  let start := guess.getD (List.replicate slots.size 0)
  MonadExcept.ofExcept (g.check [start.length])
  let settings : NewtonSettings Float := ⟨options.conditionTolerance, options.conditionIterations⟩
  let last := solve .double settings (g.eval .double) conditions.location
    (Vector.ofFn fun i => start[i.1]?.getD 0)
  return (last.point.toList, Newton.failed settings Numerics.double.norm last)

end InitialState

end JetForm
