import JetForm.Scalar

/-! # Bounded minimisation

    Brent's search for a minimum of a function on an interval.  It keeps the
    three best points met so far.  Where a parabola through them has its lowest
    point inside the interval, the next point is taken there; otherwise the
    larger part of the interval is divided in the golden ratio. -/

namespace JetForm

namespace Minimise

/-- A point and the value there. -/
structure Probe where
  point : Float
  value : Float

/-- The interval that is left, the best points met so far, and the last two
    moves. -/
structure Search where
  lo : Float
  hi : Float
  best : Probe
  second : Probe
  third : Probe
  move : Float
  previous : Float

/-- The share of the smaller part in a division by the golden ratio. -/
def golden : Float :=
  0.5 * (3.0 - Float.sqrt 5.0)

/-- The sign of a number, where zero counts as positive. -/
def direction (x : Float) : Float :=
  if x < 0 then -1 else if x == 0 || x > 0 then 1 else x

namespace Search

def middle (s : Search) : Float :=
  0.5 * (s.lo + s.hi)

/-- The least distance between points that are told apart. -/
def resolution (tolerance : Float) (s : Search) : Float :=
  Float.sqrt 2.2e-16 * s.best.point.abs + tolerance / 3.0

/-- Has the interval become small enough? -/
def finished (tolerance : Float) (s : Search) : Bool :=
  !((s.best.point - s.middle).abs > 2.0 * s.resolution tolerance - 0.5 * (s.hi - s.lo))

/-- Divide the larger part by the golden ratio. -/
def goldenMove (s : Search) : Search :=
  let part := if s.best.point >= s.middle then s.lo - s.best.point else s.hi - s.best.point
  { s with previous := part, move := golden * part }

/-- Move to the lowest point of the parabola through the three best points, if
    it lies inside and the move is less than half the one before the last. -/
def parabolicMove (tolerance : Float) (s : Search) : Search :=
  let least := s.resolution tolerance
  if s.previous.abs > least then
    let x := s.best.point
    let r := (x - s.second.point) * (s.best.value - s.third.value)
    let q := (x - s.third.point) * (s.best.value - s.second.value)
    let p := (x - s.third.point) * q - (x - s.second.point) * r
    let q := 2.0 * (q - r)
    let p := if q > 0.0 then -p else p
    let q := q.abs
    if p.abs < (0.5 * q * s.previous).abs && p > q * (s.lo - x) && p < q * (s.hi - x) then
      let move := (p + 0.0) / q
      let x' := x + move
      let move :=
        if x' - s.lo < 2.0 * least || s.hi - x' < 2.0 * least then
          least * direction (s.middle - x)
        else move
      { s with previous := s.move, move := move }
    else s.goldenMove
  else s.goldenMove

/-- Take a new probe into account. -/
def learn (s : Search) (new : Probe) : Search :=
  if new.value <= s.best.value then
    let s :=
      if new.point >= s.best.point then { s with lo := s.best.point }
      else { s with hi := s.best.point }
    { s with best := new, second := s.best, third := s.second }
  else
    let s :=
      if new.point < s.best.point then { s with lo := new.point } else { s with hi := new.point }
    if new.value <= s.second.value || s.second.point == s.best.point then
      { s with second := new, third := s.second }
    else if new.value <= s.third.value || s.third.point == s.best.point
        || s.third.point == s.second.point then
      { s with third := new }
    else s

/-- One more probe. -/
def step (f : Float → Float) (tolerance : Float) (s : Search) : Search :=
  let least := s.resolution tolerance
  let s := s.parabolicMove tolerance
  let x := s.best.point + direction s.move * larger s.move.abs least
  s.learn ⟨x, f x⟩

/-- At most `count` more probes. -/
def run (f : Float → Float) (tolerance : Float) : Nat → Search → Search
  | 0, s => s
  | count + 1, s =>
    if s.finished tolerance then s else run f tolerance count (s.step f tolerance)

end Search

/-- A point of `[lo, hi]` where `f` is small, and the value there. -/
def bounded (f : Float → Float) (lo hi tolerance : Float) (probes : Nat := 500) : Probe :=
  let x := lo + golden * (hi - lo)
  let first : Probe := ⟨x, f x⟩
  (Search.run f tolerance (probes - 1) ⟨lo, hi, first, first, first, 0, 0⟩).best

end Minimise

end JetForm
