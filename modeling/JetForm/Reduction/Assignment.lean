import JetForm.Reduction.Matching
import JetForm.Reduction.Registry
import JetForm.Tree.Arena

/-! # Defining equations

    An equation can define an unknown if it contains the highest derivative of
    that unknown.  Each unknown gets an equation of its own by a matching, in
    which unknowns come in their order and equations in theirs. -/

namespace JetForm

/-- The highest order of derivative of each unknown in some trees. -/
def Arena.tracedOrders (a : Arena) (roots : List Nat) : List Nat :=
  roots.foldl (fun orders root => List.zipWith max orders (a.info root).diffOrder)
    (List.replicate a.size 0)

namespace Assignment

/-- The equations that contain the highest derivative of an unknown. -/
def candidates (a : Arena) (roots : List Nat) (r : Registry) (var : Nat) : List Nat :=
  (List.range roots.length).filter fun e =>
    match roots[e]?, r.orders[var]? with
    | some root, some n => (((a.info root).diffOrder[var]?.getD 0 : Nat) : Int) == n
    | _, _ => false

/-- Fail unless there is an equation for each unknown, and each unknown is
    differentiated. -/
def check (roots : List Nat) (r : Registry) : Except Error Unit := do
  if roots.length ≠ r.size then throw (.equationCount roots.length r.size)
  match r.orders.idxOf? 0 with
  | some var => throw (.algebraicVariable var)
  | none => return

end Assignment

/-- For each unknown, the number of the equation that defines it. -/
def Arena.assignEquations (a : Arena) (roots : List Nat) (r : Registry) :
    Except Error (List Nat) := do
  Assignment.check roots r
  a.requireNodes roots
  if a.size < r.size then throw .orderIndex
  match Matching.complete (Assignment.candidates a roots r) r.size with
  | .ok m => return (List.range r.size).map fun var => (m.target? var).getD 0
  | .error var => throw (.noDefiningEquation (r.orders[var]?.getD 0) var)

end JetForm
