import JetForm.Integrate.InitialValue
import JetForm.Reduction.FirstOrder

/-! # Solving a problem from end to end

    A problem is reduced to first order and integrated from the end where its
    conditions hold, with a restart at every breakpoint.  Conditions at the
    right end are met by running time backwards: the reflected field starts at
    the left end of the same interval, and the rows are put back in order. -/

namespace JetForm

namespace Solve

/-! ## Over any scalar -/

section

variable {K : Type} {n : Nat} [Zero K] [One K] [Neg K] [Add K] [Sub K] [Mul K] [Div K] [BEq K]
  [LT K] [DecidableLT K] [LE K] [DecidableLE K]

/-- States at several times, and the number of Newton solves that failed. -/
structure Solution (K : Type) (n : Nat) where
  rows : List (K × Vector K n)
  failures : Nat

/-- The solution that starts at the left end. -/
def forward (N : Numerics K) (method : Method K n) (f : K → Vector K n → Vector K n) (size : K)
    (budget : K → K → Nat) (requested : Option (List K)) (breakpoints : List K)
    (y : Vector K n) : Option (Solution K n) :=
  (Steps.onDomain (method.advance N f) size budget requested breakpoints (y, 0)).map fun rows =>
    ⟨Steps.select requested (rows.map fun (t, y, _) => (t, y)),
      (rows.getLast?.map fun (_, _, failures) => failures).getD 0⟩

/-- The solution that starts at the right end. -/
def backward (N : Numerics K) (method : Method K n) (f : K → Vector K n → Vector K n) (size : K)
    (budget : K → K → Nat) (requested : Option (List K)) (breakpoints : List K)
    (y : Vector K n) : Option (Solution K n) :=
  match breakpoints.head?, breakpoints.getLast? with
  | some a, some b =>
    let mirror := fun (ts : List K) => (ts.map (Steps.reflect a b)).reverse
    (forward N method (Steps.reflectField a b f) size budget (requested.map mirror)
      (mirror breakpoints) y).map fun s => { s with rows := Steps.reflectRows a b s.rows }
  | _, _ => none

/-- Output times must be in order and inside the domain. -/
def checkTimes [Finiteness K] (d : Domain K) (requested : Option (List K)) : Except Error Unit := do
  if let some times := requested then
    if Steps.unsorted times then throw .outputUnsorted
    if times.head?.any (· < d.left) || times.getLast?.any (d.right < ·) then
      throw .outputOutsideDomain

end

/-! ## With doubles -/

/-- What is reported about the pieces of a run, or the first error among them. -/
def announcements (p : InitialValueProblem) (requested : Option (List Float)) :
    List Float → Except Error (List String)
  | a :: b :: rest => do
    let times ← Steps.outputTimes p.size.toFloat a b (some (Steps.pieceTimes requested a b))
    let total ← InitialValueProblem.totalSteps p.size.toFloat a b
    return p.announcement a b total times.length ++ (← announcements p requested (b :: rest))
  | _ => return []

/-- The states of a solution at the requested times, or at the breakpoints
    without a request; and what is reported on the way. -/
def run (system : FirstOrderSystem) (method : Method Float system.field.size) (size : Number)
    (requested : Option (List Float)) :
    Except Error (InitialValueProblem.Trajectory × List String) := do
  let some state := system.state | throw (.noConditions system.system.equations.length)
  checkTimes system.domain requested
  let p : InitialValueProblem := ⟨system.field, none, method, size, none⟩
  let points := system.domain.points
  let mirror := fun (ts : List Float) =>
    (ts.map (Steps.reflect system.domain.left system.domain.right)).reverse
  let (lines, solver) :=
    if system.isFinalValue then (announcements p (requested.map mirror) (mirror points), backward)
    else (announcements p requested points, forward)
  let lines ← lines
  p.check [state.length]
  let first := Vector.ofFn fun (i : Fin p.field.size) => state[i.1]?.getD 0
  match solver .double method p.function size.toFloat
      (InitialValueProblem.stepBudget size.toFloat) requested points first with
  | none => throw .budget
  | some solution =>
    return (⟨solution.rows.map Prod.fst, solution.rows.map fun row => row.2.toList,
      solution.failures + system.failures⟩, lines)

end Solve

end JetForm
