import JetForm.Error
import JetForm.Operation.Airy

/-! # Domains

    A domain is the interval on which a problem is posed, given by its
    breakpoints in increasing order: the two ends, and in between the points
    where a coefficient may jump.  Time integration restarts at each of them.

    Domains of expressions that are combined are merged by `Domain.union`,
    which keeps every breakpoint and insists on common ends.

    The scalar is a parameter.  Only its order, its equality and a test for
    finite numbers are used. -/

namespace JetForm

/-- Scalars that can tell finite numbers from the others. -/
class Finiteness (K : Type) where
  isFinite : K → Bool

instance : Finiteness Float := ⟨Float.isFinite⟩

section

variable {K : Type} [LE K] [DecidableLE K] [Finiteness K]

/-- Is each point above the one before it? -/
def increasingPoints : List K → Bool
  | a :: b :: rest => !decide (b ≤ a) && increasingPoints (b :: rest)
  | _ => true

end

/-- At least two finite points in increasing order. -/
structure Domain (K : Type) [LE K] [DecidableLE K] [Finiteness K] where
  points : List K
  two_le_length : 2 ≤ points.length
  finite : points.all Finiteness.isFinite = true
  increasing : increasingPoints points = true

namespace Domain

section

variable {K : Type} [LE K] [DecidableLE K] [Finiteness K]

/-! ## Building -/

/-- The domain with the given points, which must be in order already. -/
def ofPoints (points : List K) : Except (DomainError K) (Domain K) :=
  if two_le : 2 ≤ points.length then
    if finite : points.all Finiteness.isFinite = true then
      if increasing : increasingPoints points = true then .ok ⟨points, two_le, finite, increasing⟩
      else .error (.notIncreasing points)
    else .error (.notFinite points)
  else .error .tooShort

theorem points_ne_nil (d : Domain K) : d.points ≠ [] := by
  intro h
  have := d.two_le_length
  simp [h] at this

/-! ## Parts -/

/-- The left end. -/
def left (d : Domain K) : K :=
  d.points.head d.points_ne_nil

/-- The right end. -/
def right (d : Domain K) : K :=
  d.points.getLast d.points_ne_nil

/-- The pieces between neighbouring breakpoints, from left to right. -/
def intervals (d : Domain K) : List (K × K) :=
  d.points.zip d.points.tail

end

section

variable {K : Type} [LE K] [DecidableLE K] [LT K] [DecidableLT K] [BEq K] [Finiteness K]

/-! ## Merging -/

/-- Are two points the same?  All undefined points are. -/
def samePoint (x y : K) : Bool :=
  x == y || (x != x && y != y)

/-- Put a point in its place in an increasing list.  A point that is there
    already is not repeated. -/
def insertPoint (x : K) : List K → List K
  | [] => [x]
  | y :: ys =>
    if x < y then x :: y :: ys
    else if samePoint x y then y :: ys
    else y :: insertPoint x ys

/-- The points in increasing order, each once. -/
def sortPoints (points : List K) : List K :=
  points.foldl (fun sorted x => insertPoint x sorted) []

/-- The domain with the given points in any order. -/
def create (points : List K) : Except (DomainError K) (Domain K) :=
  ofPoints (sortPoints points)

/-- The domain with the breakpoints of both.  Domains that agree stay as they
    are. -/
def union (d e : Domain K) : Except (DomainError K) (Domain K) :=
  if e.points == d.points then .ok d
  else if d.left == e.left && d.right == e.right then create (d.points ++ e.points)
  else .error (.endsDiffer d.left d.right e.left e.right)

/-- The union of sample grids on all pieces. -/
def sampleBy (grid : K → K → List K) (d : Domain K) : List K :=
  sortPoints (d.intervals.flatMap fun (a, b) => grid a b)

end

/-! ## Chebyshev points -/

/-- `count` Chebyshev points of the second kind on `[a, b]`, from end to end.  The
    cosine of `k π / n` is a parameter. -/
def chebyshevBy {K : Type} [Add K] [Sub K] [Mul K] [OfScientific K] (cosine : Nat → Int → K)
    (count : Nat) (a b : K) : List K :=
  (List.range count).map fun k =>
    0.5 * (a + b) - 0.5 * (b - a) * cosine k ((count : Int) - 1)

/-- The cosine of `k π / n`. -/
def cosine (k : Nat) (n : Int) : Float :=
  Float.cos (pi * Float.ofNat k / Float.ofInt n)

/-- Chebyshev points with doubles, which increase. -/
def chebyshev (count : Nat) (a b : Float) : List Float :=
  chebyshevBy cosine count a b

/-- Chebyshev points on every piece; ends and breakpoints are among them. -/
def sample (d : Domain Float) (count : Nat := 33) : List Float :=
  d.sampleBy (chebyshev count)

end Domain

end JetForm
