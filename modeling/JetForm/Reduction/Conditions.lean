import JetForm.Reduction.Matching
import JetForm.Reduction.Registry
import JetForm.Tree.Postorder

/-! # Sorted conditions

    The conditions of a problem hold at one end of the domain, and each of them
    has to fix one entry of the state.  A condition may fix any entry that it
    mentions, and tries those of higher order first.  The conditions are
    matched to the entries like equations to unknowns. -/

namespace JetForm

/-- The place in the domain where the conditions hold: one of its ends, or any
    other place under a name. -/
inductive Endpoint where
  | left
  | right
  | other (name : String)
  deriving DecidableEq

namespace Endpoint

def name : Endpoint → String
  | .left => "left"
  | .right => "right"
  | .other name => name

/-- The place with the given name. -/
def ofName : String → Endpoint
  | "left" => .left
  | "right" => .right
  | name => .other name

end Endpoint

/-- A condition and the state entry that it fixes.  `index` is its position
    among the given conditions. -/
structure Condition where
  index : Nat
  var : Nat
  order : Nat
  slot : Nat
  handle : Nat

/-- Conditions in the order of the slots that they fix. -/
structure SortedConditions where
  conditions : List Condition
  location : Float
  endpoint : Endpoint

namespace Conditions

/-! ## Terms of a condition -/

/-- Higher orders come first, and then smaller unknowns. -/
def comesBefore (x y : Nat × Nat) : Bool :=
  decide (y.2 < x.2) || (x.2 == y.2 && decide (x.1 < y.1))

/-- Put a term in its place, unless it is there. -/
def insertTerm (x : Nat × Nat) : List (Nat × Nat) → List (Nat × Nat)
  | [] => [x]
  | y :: ys =>
    if x = y then y :: ys
    else if comesBefore x y then x :: y :: ys
    else y :: insertTerm x ys

/-- Collect what one node refers to. -/
def meet (a : Arena) (r : Registry) (terms : List (Nat × Nat)) (node : Node) :
    Except Error (List (Nat × Nat)) :=
  match node with
  | .leaf var => .ok (insertTerm (var, 0) terms)
  | .derivative child order =>
    match a.node? child with
    | some (.leaf var) => do
      let bound ← r.order var
      if bound ≤ order then .error (.conditionOrder order bound var)
      else .ok (insertTerm (var, order) terms)
    | _ => .error .conditionDerivative
  | _ => .ok terms

/-- The derivatives `(var, order)` that a condition refers to, highest order
    first. -/
def terms (a : Arena) (r : Registry) (root : Nat) : Except Error (List (Nat × Nat)) := do
  a.requireNodes [root]
  a.sweepM [root] [] fun terms _ node => meet a r terms node

/-! ## Sorting -/

/-- The key of a slot. -/
def keyOf (slots : SlotTable) (s : Nat) : Nat × Nat :=
  match slots.keys[s]? with
  | some (var, order) => (var.toNat, order.toNat)
  | none => (0, 0)

/-- For each condition, the slots that it may fix. -/
def candidates (a : Arena) (r : Registry) (slots : SlotTable) (roots : List Nat) :
    Except Error (List (List Nat)) :=
  roots.mapM fun root => do
    (← terms a r root).mapM fun (var, order) => slots.slot var order

/-- Why a matching is not complete: a slot that no condition fixes, or else a
    condition that is too many. -/
def defect (count : Nat) (slots : SlotTable) (candidates : List (List Nat)) (m : Matching) :
    Option Error :=
  match (List.range slots.size).find? fun s => (m.owner? s).isNone with
  | some s =>
    let (var, order) := keyOf slots s
    some (.slotUnfixed count slots.size s var order)
  | none =>
    if count = slots.size then none
    else
      let extra := ((List.range count).find? fun c => (m.target? c).isNone).getD 0
      let term := ((candidates[extra]?.getD []).head?).map (keyOf slots)
      some (.conditionRedundant count slots.size extra term)

/-- The condition that fixes a slot. -/
def conditionAt (slots : SlotTable) (roots : List Nat) (m : Matching) (s : Nat) :
    Option Condition := do
  let c ← m.owner? s
  let root ← roots[c]?
  let (var, order) := keyOf slots s
  return ⟨c, var, order, s, root⟩

/-- Assign each condition to the state entry that it fixes. -/
def sort (a : Arena) (roots : List Nat) (r : Registry) (slots : SlotTable) (location : Float)
    (endpoint : Endpoint) : Except Error SortedConditions := do
  let candidates ← candidates a r slots roots
  let m := Matching.greedy (fun c => candidates[c]?.getD []) roots.length
  match defect roots.length slots candidates m with
  | some e => throw e
  | none =>
    return ⟨(List.range slots.size).filterMap (conditionAt slots roots m), location, endpoint⟩

end Conditions

end JetForm
