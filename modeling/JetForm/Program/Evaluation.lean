import JetForm.Program.Cell

/-! # Evaluations

    The same program can be run with doubles, with all their rounding and
    faults, or with the elements of a field, exactly.  An `Evaluation` is such a
    choice. -/

namespace JetForm

/-- How programs compute with scalars of a given kind: what the registers hold,
    what the operations do, and how an output becomes a scalar again. -/
structure Evaluation (K : Type) where
  Register : Type
  meaning : K → (Int → K) → Meaning Register
  result : Register → K

namespace Evaluation

/-- Exact evaluation, where registers hold scalars and values are functions of
    the time. -/
def exact {K : Type} (value : Value → K → K) (unary : UnaryOp → K → K)
    (binary : BinaryOp → K → K → K) : Evaluation K where
  Register := K
  meaning t state := ⟨fun _ => t, t, fun v => value v t, state, unary, binary, fun _ x => x⟩
  result := id

/-- Evaluation with doubles.  A fault becomes an undefined result; whether there
    is one does not depend on the time and the state. -/
def double : Evaluation Float where
  Register := Cell Entry
  meaning t state := Cell.meaning .single (.real t) fun s => .entry (.real (state s))
  result cell :=
    match cell.toEntry .single with
    | .ok x => x.toFloat + 0
    | .error _ => 0.0 / 0.0

end Evaluation

end JetForm
