import JetForm.Program.Evaluation
import JetForm.Program.Source

/-! # Functions with a single output

    A scalar function is a program with one output.  It may read the time and
    the state; where it is called without a state, reading one is a fault. -/

namespace JetForm

/-- A program with one output, under a name. -/
structure ScalarFunction where
  program : Program
  name : String
  length_outputs : program.outputs.length = 1

namespace ScalarFunction

/-- The function that a program computes. -/
def create (program : Program) (name : String := "scalar_fn") : Except Error ScalarFunction :=
  if length : program.outputs.length = 1 then .ok ⟨program, name, length⟩
  else .error (.singleOutput program.outputs.length)

/-- The generated text of the function. -/
def source (f : ScalarFunction) : String :=
  f.program.scalarSource f.name

/-- A state entry; negative slots count from the end, and slots beyond an end
    mean the nearest entry, if there is one. -/
def stateEntry (x : Tensor Entry) (s : Int) : Cell (Tensor Entry) :=
  match x.shape.getLast? with
  | none | some 0 => .fault .noAxes
  | some size =>
    let position := if s < 0 then s + size else s
    .entry (x.lastAxis default (min position.toNat (size - 1)))

/-- Does the program use the operation whose name the function has?  Then the
    generated function would call itself. -/
def isShadowing (f : ScalarFunction) : Bool :=
  f.program.instructions.any fun
    | .unary op _ => op.name == f.name
    | .binary .. => false

/-- The entries of the function at all given times, and states if there are
    any. -/
def entries (f : ScalarFunction) (t : Tensor Float) (x : Option (Tensor Float)) :
    Except Fault (Tensor Entry) := do
  if f.isShadowing then throw (.shadowed f.name)
  let state := fun (s : Int) =>
    match x with
    | some x => stateEntry (x.map .real) s
    | none => .fault .noState
  let zero := t.map fun _ => Entry.real 0
  match ← f.program.entries .tensor (Cell.meaning .tensor (t.map .real) state) with
  | y :: _ => Entries.zipTensors (Entry.combine .plus) y zero
  | [] => throw .shapes

/-- The function at all given times, and states if there are any. -/
def call (f : ScalarFunction) (t : Tensor Float) (x : Option (Tensor Float)) :
    Except Error (Tensor Float) :=
  ((f.entries t x).bind fun y => y.mapM Entry.toReal).mapError .fault

/-- The function at a single time, with state entries read as zero. -/
def eval {K : Type} [Zero K] (E : Evaluation K) (f : ScalarFunction) (t : K) : K :=
  match f.program.run (E.meaning t fun _ => 0) with
  | y :: _ => E.result y
  | [] => 0

/-- The fault that every evaluation with doubles at a single time meets, if
    any. -/
def fault? (f : ScalarFunction) : Option Fault :=
  match f.program.entries .single (Cell.meaning .single (.real 0) fun _ => .fault .noState) with
  | .ok _ => none
  | .error e => some e

end ScalarFunction

end JetForm
