import JetForm.Program.Evaluation
import JetForm.Program.Source

/-! # Vector fields

    A vector field is a program with one output for each entry of the state: the
    right-hand side of `x' = f(t, x)`.

    `VectorField.eval` computes the field at a single state, over any scalar
    for which an `Evaluation` says what the operations mean.
    `VectorField.call` takes a whole tensor of states, whose last axis is the
    state, and a tensor of times; both are broadcast against each other. -/

namespace JetForm

/-- A program with an output for each state entry that reads no other entries. -/
structure VectorField where
  program : Program
  size : Nat
  length_outputs : program.outputs.length = size
  slots_within : ∀ s ∈ program.slots, 0 ≤ s ∧ s < size

namespace VectorField

/-- The field that a program computes on states of the given size. -/
def create (program : Program) (size : Int) : Except Error VectorField :=
  if (program.outputs.length : Int) = size then
    if within : ∀ s ∈ program.slots, 0 ≤ s ∧ s < program.outputs.length then
      .ok ⟨program, program.outputs.length, rfl, within⟩
    else
      .error (.slotsOutside
        (program.slots.filter fun s => !decide (0 ≤ s ∧ s < program.outputs.length))
        program.outputs.length)
  else .error (.outputCount program.outputs.length size)

/-- The generated text of the evaluator. -/
def source (f : VectorField) : String :=
  f.program.fieldSource "vector_field"

/-- Short written form. -/
def label (f : VectorField) : String :=
  s!"VectorField(n_state={f.size})"

/-! ## Single states -/

/-- The field at a time and a state. -/
def eval {K : Type} (E : Evaluation K) (f : VectorField) (t : K) (x : Vector K f.size) :
    Vector K f.size :=
  let outputs := f.program.run (E.meaning t fun s => x[s.toNat]?.getD t)
  ⟨(outputs.map E.result).toArray, by simp [outputs, Program.run, f.length_outputs]⟩

/-- The fault that every evaluation with doubles meets, if any.  A field without
    outputs has nothing to stack, and a complex output is none. -/
def fault? (f : VectorField) : Option Fault :=
  let m := Cell.meaning .single (.real 0) fun _ => .entry (.real 0)
  match (f.program.entries .single m).bind fun outputs => outputs.mapM Entry.toReal with
  | .error e => some e
  | .ok [] => some .shapes
  | .ok _ => none

/-! ## Tensors of states -/

/-- The outputs are broadcast to the common shape of the times and the states,
    and stacked along a new last axis. -/
def stackOutputs (batch : List Nat) (outputs : List (Cell (Tensor Entry))) :
    Except Fault (Tensor Entry) := do
  let zero := Tensor.ofFn batch fun _ => Entry.real 0
  let rows ← outputs.mapM fun y => do
    Entries.zipTensors (Entry.combine .plus) (← y.toEntry .tensor) zero
  match rows with
  | [] => .error .shapes
  | row :: _ => return Tensor.stack row.shape default rows

/-- Fail unless the last axis of a shape holds a state. -/
def checkShape (f : VectorField) (shape : List Nat) : Except Error Unit :=
  if shape.getLast? = some f.size then .ok () else .error (.stateShape f.size shape)

/-- The field at all given times and states. -/
def call (f : VectorField) (t x : Tensor Float) : Except Error (Tensor Float) := do
  f.checkShape x.shape
  let states := x.map Entry.real
  let m := Cell.meaning .tensor (t.map .real) fun s => .entry (states.lastAxis default s.toNat)
  let stacked : Except Fault (Tensor Float) := do
    if let some e := f.program.fault? m then throw e
    match Tensor.broadcastShape t.shape x.shape.dropLast with
    | none => throw .shapes
    | some batch => (← stackOutputs batch (f.program.run m)).mapM Entry.toReal
  stacked.mapError .fault

/-- Fail as a call at a single state of the given shape does. -/
def check (f : VectorField) (shape : List Nat) : Except Error Unit := do
  f.checkShape shape
  match f.fault? with
  | some e => .error (.fault e)
  | none => .ok ()

/-- Fail as a search for a zero from states of the given shape does.  The search
    is for a single state. -/
def checkSearch (f : VectorField) (shape : List Nat) : Except Error Unit := do
  f.check shape
  match shape with
  | [_] => return
  | [m, n] => throw (.batchedState (m = 1 || n ≤ m))
  | _ => throw (.batchedState false)

end VectorField

end JetForm
