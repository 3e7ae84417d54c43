import JetForm.Program.Scalar
import JetForm.Reduction.Minimise
import JetForm.Reduction.Singularity

/-! # Leading coefficients

    The coefficient of the highest derivative in the equation that defines an
    unknown, as a function of the independent variable. -/

namespace JetForm

/-- The coefficient of `u_var^(order)`.  `constant` is its value if it is a
    plain number. -/
structure LeadingCoefficient where
  var : Nat
  order : Nat
  handle : Nat
  function : ScalarFunction
  constant : Option Float

namespace LeadingCoefficient

/-- The value of a node that is a plain number. -/
def constantValue (a : Arena) (h : Nat) : Except Error (Option Float) :=
  match a.node? h with
  | some (.constant v) =>
    match a.value v with
    | .number n => some <$> n.toDouble.mapError .fault
    | .external _ => .ok none
  | _ => .ok none

/-- The coefficient below a handle. -/
def create (a : Arena) (var order h : Nat) : Except Error LeadingCoefficient := do
  let program ← Program.ofTrees a [h]
  let function ← ScalarFunction.create program s!"coeff_{var}"
  return ⟨var, order, h, function, ← constantValue a h⟩

/-- The minimiser that looks for zeros between samples. -/
def minimise (c : Float → Float) (lo hi : Float) : Float × Float :=
  let least := Minimise.bounded (fun t => (c t).abs) lo hi (1e-10 * larger 1 (hi - lo).abs)
  (least.point, least.value)

/-- The samples on each piece of a domain.  All points of a piece are evaluated
    in one call. -/
def pieces (c : LeadingCoefficient) (d : Domain Float) (count : Nat) :
    Except Fault (List (List (Singularity.Sample Float))) :=
  d.intervals.mapM fun (a, b) => do
    let points := Domain.chebyshev count a b
    let values ← c.function.entries ⟨[points.length], points.toArray⟩ none
    return points.zip (values.entries.toList.map Entry.toFloat)

/-- How the coefficient vanishes on a domain, if it does.  A plain number is
    looked at directly, everything else is sampled.  A function that has no
    value at a point by itself cannot be minimised, which is a fault as soon as
    it should be. -/
def singularity? (c : LeadingCoefficient) (d : Domain Float) (tolerance : Float) (count : Nat)
    (search : (Float → Float) → Float → Float → Float × Float := minimise) :
    Except Fault (Option (Singularity Float)) := do
  match c.constant with
  | some x => return Singularity.ofNumber c.order x
  | none =>
    let pieces ← c.pieces d count
    match c.function.fault? with
    | none =>
      return Singularity.ofPieces (search (c.function.eval .double)) tolerance pieces
    | some fault =>
      match Singularity.ofPieces (fun lo _ => (lo, -1 / 0)) tolerance pieces with
      | some (.vanishesNear _) => throw fault
      | found => return found

/-- Fail if the coefficient vanishes on a domain. -/
def check (c : LeadingCoefficient) (d : Domain Float) (tolerance : Float := 1e-12)
    (count : Nat := 65) (search : (Float → Float) → Float → Float → Float × Float := minimise) :
    Except Error Unit := do
  let found ← (c.singularity? d tolerance count search).mapError .fault
  if c.constant.isNone && count = 0 then throw .noSamples
  match found with
  | some s => throw (.singular s c.var)
  | none => return

end LeadingCoefficient

end JetForm
