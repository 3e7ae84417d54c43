import JetForm.Reduction.Registry
import JetForm.Tree.Copy
import JetForm.Tree.Postorder

/-! # Substitution of state entries

    In a tree in normal form every unknown and every derivative below the
    highest order is replaced by its entry of the state.  A highest derivative
    that remains makes the problem implicit. -/

namespace JetForm

namespace Substitute

/-- What has been substituted so far. -/
abbrev Memo := Std.HashMap Nat Nat

/-- Building with the memory of earlier substitutions. -/
abbrev Substituting := StateT Memo Building

/-- The state entry for a derivative of an unknown. -/
def stateEntry (slots : SlotTable) (var order : Nat) : Building Nat := do
  let s ← MonadExcept.ofExcept (slots.slot var order)
  Arena.slot s var order

/-- The state entry for a derivative, which must be one of an unknown. -/
def derivative (r : Registry) (slots : SlotTable) (child : Option Node) (order : Nat) :
    Building Nat := do
  match child with
  | some (.leaf var) =>
    if (← MonadExcept.ofExcept (r.order var)) ≤ order then throw (.highestOutside order var)
    stateEntry slots var order
  | _ => throw .compoundDerivative

/-- Substitute in one node, its children being done. -/
def meet (a : Arena) (r : Registry) (slots : SlotTable) (h : Nat) (node : Node) :
    Substituting Unit := do
  let memo ← get
  if memo.contains h then return
  let result ←
    match node with
    | .leaf var => stateEntry slots var 0
    | .derivative child order => derivative r slots (a.node? child) order
    | node => Arena.copyNode (fun c => memo[c]?.getD c) h node
  modify (·.insert h result)

/-- Substitute in a tree. -/
def root (r : Registry) (slots : SlotTable) (h : Nat) : Substituting Nat := do
  let a ← getThe Arena
  a.sweepM [h] () fun _ h node => meet a r slots h node
  return (← get)[h]?.getD h

end Substitute

end JetForm
