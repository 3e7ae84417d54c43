import JetForm.Decimal.Binary64
import JetForm.Integrate.Method
import JetForm.Number.Basic
import JetForm.Program.Field

/-! # Initial-value problems with doubles

    A field, a method and a step size, applied to one state or to many states
    at once.  Whatever can be wrong with the field is found before the first
    step: its faults depend neither on the time nor on the state. -/

namespace JetForm

/-! ## User-supplied Jacobians -/

/-- A program for the entries of a Jacobian, row after row. -/
structure JacobianProgram where
  program : Program
  size : Nat

namespace JacobianProgram

/-- The matrix at a time and a state. -/
def eval (J : JacobianProgram) {n : Nat} (t : Float) (x : Vector Float n) : Matrix Float n n :=
  let E := Evaluation.double
  let entries := (J.program.run (E.meaning t fun s => x[s.toNat]?.getD 0)).map E.result
  let entries := entries.toArray
  Matrix.ofFn fun i j => entries[i.1 * J.size + j.1]?.getD 0

/-- The matrix of a field that is multiplied by a rate. -/
def withRate (J : JacobianProgram) (rate : Option Float) {n : Nat} (t : Float)
    (x : Vector Float n) : Matrix Float n n :=
  match rate with
  | some r => (J.eval t x).map fun row => r • row
  | none => J.eval t x

/-- Fail as every evaluation does, if it does. -/
def check (J : JacobianProgram) : Except Error Unit :=
  let m := Cell.meaning .single (.real 0) fun _ => .entry (.real 0)
  match (J.program.entries .single m).bind fun entries => entries.mapM Entry.toReal with
  | .ok _ => .ok ()
  | .error e => .error (.fault e)

end JacobianProgram

/-! ## States -/

/-- Several states that are advanced together, and the number of Newton solves
    that failed on the way. -/
abbrev States (n : Nat) := List (Vector Float n) × Nat

namespace States

variable {n : Nat}

/-- The states along the last axis of a tensor. -/
def ofTensor (n : Nat) (x : Tensor Float) : States n :=
  ((List.range (Tensor.volume x.shape.dropLast)).map fun row =>
    Vector.ofFn fun i => x.entries[row * n + i.1]?.getD 0, 0)

/-- The entries of all states in order. -/
def entries (s : States n) : List Float :=
  s.1.flatMap Vector.toList

/-- Advance each state by itself. -/
def advance (step : Stepper Float (Vector Float n × Nat)) : Stepper Float (States n) :=
  fun t (states, failures) h =>
    let next := states.map fun y => step t (y, 0) h
    (next.map Prod.fst, (next.map Prod.snd).foldl (· + ·) failures)

end States

/-! ## Problems -/

/-- A field, multiplied by a rate if one is given, with a method and a step
    size.  `jacobian` is the program that an implicit method evaluates. -/
structure InitialValueProblem where
  field : VectorField
  rate : Option Float
  method : Method Float field.size
  size : Number
  jacobian : Option JacobianProgram

namespace InitialValueProblem

/-- The function that is integrated. -/
def function (p : InitialValueProblem) (t : Float) (y : Vector Float p.field.size) :
    Vector Float p.field.size :=
  match p.rate with
  | some r => r • p.field.eval .double t y
  | none => p.field.eval .double t y

/-- One step for all states. -/
def advance (p : InitialValueProblem) : Stepper Float (States p.field.size) :=
  States.advance (p.method.advance .double p.function)

/-- A bound for the number of steps between two times, with room for rounding. -/
def stepBudget (size a b : Float) : Nat :=
  2 * ((b - a) / size).ceil.toUInt64.toNat + 16

/-- States at several times. -/
structure Trajectory where
  times : List Float
  states : List (List Float)
  failures : Nat

namespace Trajectory

/-- A trajectory from rows of states. -/
def ofRows {n : Nat} (rows : List (Float × States n)) : Trajectory :=
  ⟨rows.map Prod.fst, rows.map fun row => row.2.entries,
    (rows.getLast?.map fun row => row.2.2).getD 0⟩

end Trajectory

/-- Fail as the field does for states of the given shape.  Of complex outputs a
    step keeps the real parts. -/
def checkField (p : InitialValueProblem) (shape : List Nat) : Except Error Unit :=
  match p.field.check shape with
  | .error (.fault .complexOutput) => .ok ()
  | result => result

/-- Fail as the first step from states of the given shape does.  An implicit
    step solves for one state. -/
def check (p : InitialValueProblem) (shape : List Nat) : Except Error Unit := do
  p.checkField shape
  match p.method with
  | .explicit .. => return
  | .backwardEuler .. =>
    if let some J := p.jacobian then J.check
    if 1 < shape.length then throw (.batchedState (shape.length = 2 && p.field.size = 1))

/-- The final time and states. -/
def final (p : InitialValueProblem) (start stop : Float) (y : Tensor Float) :
    Except Error Trajectory := do
  p.check y.shape
  let size := p.size.toFloat
  let first := States.ofTensor p.field.size y
  match Steps.run p.advance size stop (stepBudget size start stop) start first with
  | some row => return .ofRows [row]
  | none => throw .budget

/-! ## Histories -/

/-- The number of steps that a run will take. -/
def totalSteps (size start stop : Float) : Except Error Int :=
  let count := ((stop - start) / size).ceil
  match Binary64.truncate? count with
  | some n => .ok n
  | none => .error (.stepCount count.isNaN)

/-- What is reported before a run with the given number of output times. -/
def announcement (p : InitialValueProblem) (start stop : Float) (total : Int) (points : Nat) :
    List String :=
  [ "Solving with " ++ p.method.name,
    "Time: [" ++ Decimal.exactText start ++ ", " ++ Decimal.exactText stop ++ "], dt="
      ++ p.size.exactText ++ ", ~" ++ toString total ++ " total steps",
    "Evaluating at " ++ toString points ++ " time points" ]

/-- The states at the output times, and what is reported about the run.  The
    first state is saved as it is given. -/
def history (p : InitialValueProblem) (start stop : Float) (requested : Option (List Float))
    (y : Tensor Float) : Except Error (Trajectory × List String) := do
  let size := p.size.toFloat
  let times ← Steps.outputTimes size start stop requested
  let total ← totalSteps size start stop
  if 1 < times.length then p.check y.shape
  let first := States.ofTensor p.field.size y
  match Steps.history p.advance size (stepBudget size) (times.headD start) first times.tail with
  | some rows =>
    let saved := Trajectory.ofRows ((start, first) :: rows)
    return ({ saved with states := y.entries.toList :: saved.states.tail },
      p.announcement start stop total times.length)
  | none => throw .budget

/-- Steps of given sizes, one after the other.  The failures are those of all
    steps together. -/
def walk (p : InitialValueProblem) (start : Float) (sizes : List Float) (y : Tensor Float) :
    Except Error Trajectory := do
  if !sizes.isEmpty then p.check y.shape
  let first := (start, States.ofTensor p.field.size y)
  let rows := sizes.foldl (fun (rows, (t, s)) h =>
    let next := (t + h, p.advance t s h)
    (rows ++ [next], next)) ([], first)
  return .ofRows rows.1

end InitialValueProblem

end JetForm
