import JetForm.Program.Basic
import JetForm.Program.Tensor

/-! # Cells

    A register of a running program holds a plain number, array entries, or the
    fault that stopped its computation.  Plain numbers keep their own
    arithmetic as long as they meet only each other.  As soon as the time, the
    state or an elementary function takes part, the result is an entry, and
    entries follow the arithmetic of arrays.

    The entries of one register are a single entry, or a tensor of entries when
    many states are evaluated in one call.  `Entries` collects the little that a
    cell needs to know about them. -/

namespace JetForm

/-- What a register holds. -/
inductive Cell (ρ : Type) where
  | plain (n : Number)
  | entry (x : ρ)
  | fault (f : Fault)

/-! ## External functions -/

namespace Law

/-- The value at a single time. -/
def onEntry (law : Law) (t : Entry) : Except Fault Entry :=
  match law, law.function? with
  | _, some f => .ok (.real (f t.toFloat))
  | .inert type _, none => .error (.notCallable type)
  | _, none => .error .notIterable

/-- The greatest of the parts along the first axis.  Only parts with a single
    entry can be compared. -/
def greatestPart (t : Tensor Entry) : Except Fault (Tensor Entry) :=
  match t.shape with
  | [] => .error .notIterable
  | 0 :: _ => .error .noGreatest
  | 1 :: rest => .ok ⟨rest, t.entries⟩
  | _ :: rest =>
    if Tensor.volume rest = 1 then
      let greatest := t.entries.foldl (fun most x =>
        match most with
        | some m => if (m : Entry).toFloat < x.toFloat then some x else some m
        | none => some x) none
      .ok ⟨rest, greatest.toList.toArray⟩
    else .error .ambiguousOrder

/-- The values at all times of a tensor. -/
def onTensor (law : Law) (t : Tensor Entry) : Except Fault (Tensor Entry) :=
  match law, law.function? with
  | _, some f => .ok (t.map fun x => .real (f x.toFloat))
  | .inert type _, none => .error (.notCallable type)
  | _, none => greatestPart t

end Law

/-! ## Entries -/

/-- Arithmetic on the entries of a register.  Tensors can fail to be combined,
    when their shapes do not broadcast. -/
structure Entries (ρ : Type) where
  ofEntry : Entry → ρ
  map : (Entry → Except Fault Entry) → ρ → Except Fault ρ
  zip : (Entry → Entry → Except Fault Entry) → ρ → ρ → Except Fault ρ
  external : Law → ρ → Except Fault ρ

namespace Entries

/-- A single entry. -/
def single : Entries Entry :=
  ⟨id, fun f x => f x, fun f x y => f x y, Law.onEntry⟩

/-- Combine two tensors of entries. -/
def zipTensors (f : Entry → Entry → Except Fault Entry) (x y : Tensor Entry) :
    Except Fault (Tensor Entry) :=
  match Tensor.zip default default f x y with
  | some z => z.mapM id
  | none => .error (if x.shape.length = y.shape.length then .extents else .shapes)

/-- A tensor of entries. -/
def tensor : Entries (Tensor Entry) :=
  ⟨Tensor.scalar, fun f x => x.mapM f, zipTensors, Law.onTensor⟩

end Entries

namespace Cell

variable {ρ : Type} (E : Entries ρ)

/-! ## Operations -/

/-- The outcome of a computation with entries. -/
def ofExcept : Except Fault ρ → Cell ρ
  | .ok x => .entry x
  | .error f => .fault f

/-- The outcome of a computation with plain numbers. -/
def ofNumber : Except Fault Number → Cell ρ
  | .ok n => .plain n
  | .error f => .fault f

/-- The content as entries. -/
def toEntry : Cell ρ → Except Fault ρ
  | .plain n => E.ofEntry <$> n.toEntry
  | .entry x => .ok x
  | .fault f => .error f

/-- A unary operation turns a plain number into an entry. -/
def unary (op : UnaryOp) : Cell ρ → Cell ρ
  | .plain n => ofExcept (E.ofEntry <$> op.onNumber n)
  | .entry x => ofExcept (E.map op.onEntry x)
  | .fault f => .fault f

/-- Combine entries. -/
def zip (op : BinaryOp) (x y : Except Fault ρ) : Cell ρ :=
  ofExcept do E.zip (Entry.combine op) (← x) (← y)

/-- A binary operation.  Of two faults the left one counts. -/
def binary (op : BinaryOp) : Cell ρ → Cell ρ → Cell ρ
  | .plain a, .plain b => ofNumber (Number.combine op a b)
  | .fault f, _ => .fault f
  | _, .fault f => .fault f
  | .entry x, .plain b => ofExcept do E.map (← b.rightOf op) x
  | x, y => zip E op (toEntry E x) (toEntry E y)

/-- A value that stands in a program: an external function is evaluated at the
    time. -/
def ofValue (time : ρ) : Value → Cell ρ
  | .number n => .plain n
  | .external f => ofExcept (E.external f.law time)

/-- The meaning of programs over cells.  Unknowns and derivatives do not occur
    in a program. -/
def meaning (time : ρ) (state : Int → Cell ρ) : Meaning (Cell ρ) where
  leaf _ := .fault .unevaluable
  time := .entry time
  value := ofValue E time
  state := state
  unary := unary E
  binary := binary E
  derivative _ _ := .fault .unevaluable

/-- The fault that a cell holds. -/
def fault? : Cell ρ → Option Fault
  | .fault f => some f
  | _ => none

end Cell

namespace Program

/-- The fault that stops a run: external functions are evaluated first, then the
    instructions in order, then the outputs. -/
def fault? {ρ : Type} (p : Program) (m : Meaning (Cell ρ)) : Option Fault :=
  let externals := p.constants.filterMap fun (_, v) =>
    if v.isNumber then none else some (m.value v)
  (externals ++ (p.registers m).toList ++ p.run m).findSome? Cell.fault?

/-- The outputs as entries, unless the run is stopped. -/
def entries {ρ : Type} (p : Program) (E : Entries ρ) (m : Meaning (Cell ρ)) :
    Except Fault (List ρ) :=
  match p.fault? m with
  | some f => .error f
  | none => (p.run m).mapM (Cell.toEntry E)

end Program

end JetForm
