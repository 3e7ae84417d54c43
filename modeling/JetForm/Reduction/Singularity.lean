import JetForm.Domain
import JetForm.Scalar

/-! # Coefficients that vanish

    The equations are divided by their leading coefficients, so none of them
    may vanish on the domain.  A plain number is looked at directly.  Everything
    else is sampled on every piece of the domain, and refused

    - if a sample is not finite,
    - if a sample is zero compared with the largest one,
    - if neighbouring samples of one piece differ in sign,
    - or if a minimiser, started between the neighbours of a sample that is
      smaller than they are, finds a zero.

    Jumps at breakpoints are no zeros: samples of different pieces are never
    compared.  The sample grid and the minimiser are parameters. -/

namespace JetForm

namespace Singularity

variable {K : Type} [Zero K] [One K] [Neg K] [Mul K] [LE K] [DecidableLE K] [LT K]
  [DecidableLT K] [Finiteness K]

/-- A point and the value of the coefficient there. -/
abbrev Sample (K : Type) := K × K

/-- Each entry with its left and right neighbour; an entry at an end is its own
    neighbour. -/
def withNeighbours {α : Type} (xs : List α) : List (α × α × α) :=
  (xs.take 1 ++ xs).zip (xs.zip (xs.drop 1 ++ xs.getLast?.toList))

/-- Is the middle sample smaller than one neighbour, and larger than none? -/
def isStrictMinimum (left middle right : Sample K) : Bool :=
  let l := magnitude left.2
  let m := magnitude middle.2
  let r := magnitude right.2
  !decide (l < m) && !decide (r < m) && decide (m < larger l r)

/-- The brackets around the strict local minima of the sampled magnitudes. -/
def brackets (samples : List (Sample K)) : List (K × K) :=
  (withNeighbours samples).filterMap fun (left, middle, right) =>
    if isStrictMinimum left middle right then some (left.1, right.1) else none

/-- What is wrong with a coefficient that is a plain number, if anything. -/
def ofNumber [BEq K] (order : Int) (x : K) : Option (Singularity K) :=
  if x == 0 || !Finiteness.isFinite x then some (.constant order x) else none

/-- What is wrong on one piece, if anything. -/
def onPiece (minimise : K → K → K × K) (threshold : K) (samples : List (Sample K)) :
    Option (Singularity K) :=
  if let some (t, _) := samples.find? fun (_, c) => decide (magnitude c ≤ threshold) then
    some (.vanishesAt t)
  else if let some ((t, _), (t', _)) := (samples.zip samples.tail).find? fun (a, b) =>
      signOf b.2 != signOf a.2 then
    some (.changesSign t t')
  else
    (brackets samples).findSome? fun (lo, hi) =>
      let (t, least) := minimise lo hi
      if least ≤ threshold then some (.vanishesNear t) else none

/-- The share of `1`, or of the largest sample if that is larger, up to which a
    magnitude counts as zero. -/
def threshold (tolerance : K) (values : List K) : K :=
  tolerance * values.foldl (fun most c => larger most (magnitude c)) 1

/-- What is wrong with a coefficient that has the given samples on each piece,
    if anything. -/
def ofPieces (minimise : K → K → K × K) (tolerance : K) (pieces : List (List (Sample K))) :
    Option (Singularity K) :=
  let values := pieces.flatten.map Prod.snd
  if values.all Finiteness.isFinite then
    pieces.findSome? (onPiece minimise (threshold tolerance values))
  else some .notFinite

/-- The samples of a function on each piece of a domain. -/
def samples (grid : K → K → List K) (c : K → K) (d : Domain K) : List (List (Sample K)) :=
  d.intervals.map fun (a, b) => (grid a b).map fun t => (t, c t)

/-- What is wrong with a coefficient `c` on a domain, if anything. -/
def ofSamples (grid : K → K → List K) (minimise : (K → K) → K → K → K × K) (tolerance : K)
    (c : K → K) (d : Domain K) : Option (Singularity K) :=
  ofPieces (minimise c) tolerance (samples grid c d)

end Singularity

end JetForm
