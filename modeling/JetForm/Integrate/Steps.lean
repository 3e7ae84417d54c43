import JetForm.Error
import JetForm.Scalar

/-! # Integration in steps

    `Steps.run` advances a state from time to time by a fixed step size.  The
    last step is shortened so that it ends exactly at the given time.  The
    number of steps depends on rounding, so a budget bounds it; running out of
    the budget is no result.

    `Steps.history` saves the state at output times and restarts at each of
    them.  `Steps.pieces` does the same on a domain whose interior breakpoints
    are restarts as well.

    A state can be anything that the given step can advance. -/

namespace JetForm

/-- A step from a time and a state by a step size. -/
abbrev Stepper (K σ : Type) := K → σ → K → σ

namespace Steps

variable {K σ : Type}

section

variable [Zero K] [Add K] [Sub K] [LT K] [DecidableLT K] [LE K] [DecidableLE K]

/-! ## Runs -/

/-- The size of the next step: no longer than the rest, and never backwards. -/
def stepSize (size t stop : K) : K :=
  larger 0 (smaller (stop - t) size)

/-- Advance to `stop`, or not at all if it has passed.  The time that is
    returned is the sum of all steps. -/
def run (advance : Stepper K σ) (size stop : K) : Nat → K → σ → Option (K × σ)
  | budget, t, y =>
    if t < stop then
      match budget with
      | 0 => none
      | budget + 1 =>
        let h := stepSize size t stop
        run advance size stop budget (t + h) (advance t y h)
    else some (t, y)

/-- Saved states behind the one at `start`, one for each output time.  `budget`
    bounds the steps between two times. -/
def history (advance : Stepper K σ) (size : K) (budget : K → K → Nat) :
    K → σ → List K → Option (List (K × σ))
  | _, _, [] => some []
  | start, y, stop :: rest =>
    match run advance size stop (budget start stop) start y with
    | none => none
    | some (t, y) => (history advance size budget stop y rest).map ((t, y) :: ·)

end

/-! ## Output times -/

section

variable [Zero K] [LT K] [DecidableLT K] [LE K] [DecidableLE K] [BEq K]

/-- Does some time come before its predecessor? -/
def unsorted : List K → Bool
  | a :: b :: rest => decide (b < a) || unsorted (b :: rest)
  | _ => false

/-- The times at which states are saved, starting with the start of the run. -/
def outputTimes (size start stop : K) (requested : Option (List K)) : Except Error (List K) :=
  if size ≤ 0 then .error .stepSize
  else if stop < start then .error .timeSpan
  else
    match requested with
    | none => .ok [start, stop]
    | some times =>
      if times.any fun t => decide (t < start) || decide (stop < t) then
        .error .outputOutsideSpan
      else if unsorted times then .error .outputUnsorted
      else
        match times with
        | [] => .error .noTimes
        | t :: _ => .ok (if t == start then times else start :: times)

end

/-! ## Pieces -/

section

variable [Zero K] [Add K] [Sub K] [LT K] [DecidableLT K] [LE K] [DecidableLE K]

/-- The requested times inside a piece, and its end. -/
def pieceTimes (requested : Option (List K)) (a b : K) : List K :=
  match requested with
  | none => [b]
  | some times => times.filter (fun t => decide (a < t) && decide (t < b)) ++ [b]

/-- The states at the output times of all pieces behind the first point.  Each
    piece starts from the state at the end of the one before. -/
def pieces (advance : Stepper K σ) (size : K) (budget : K → K → Nat)
    (requested : Option (List K)) : K → σ → List K → Option (List (K × σ))
  | _, _, [] => some []
  | a, y, b :: rest => do
    let times := pieceTimes requested a b
    let saved ← history advance size budget a y times
    let states := saved.map Prod.snd
    let later ← pieces advance size budget requested b (states.getLast?.getD y) rest
    return times.zip states ++ later

/-- The rows at the requested times; without a request, those at all
    breakpoints. -/
def select [BEq K] (requested : Option (List K)) (rows : List (K × σ)) : List (K × σ) :=
  match requested with
  | none => rows
  | some times => rows.filter fun row => times.contains row.1

/-- Integrate over a domain, given by its breakpoints, from the state at its
    left end. -/
def onDomain (advance : Stepper K σ) (size : K) (budget : K → K → Nat)
    (requested : Option (List K)) (breakpoints : List K) (y : σ) : Option (List (K × σ)) :=
  match breakpoints with
  | [] => some []
  | a :: rest => (pieces advance size budget requested a y rest).map ((a, y) :: ·)

end

/-! ## Reflection -/

section

variable [Add K] [Sub K]

/-- The time as far from the end `b` as `t` is from the start `a`. -/
def reflect (a b t : K) : K :=
  a + b - t

/-- The field that runs the solution of `f` backwards over `[a, b]`. -/
def reflectField {V : Type} [Neg V] (a b : K) (f : K → V → V) (t : K) (y : V) : V :=
  -f (reflect a b t) y

/-- Rows in reflected time, put back in increasing order. -/
def reflectRows (a b : K) (rows : List (K × σ)) : List (K × σ) :=
  rows.reverse.map fun (t, y) => (reflect a b t, y)

end

end Steps

end JetForm
