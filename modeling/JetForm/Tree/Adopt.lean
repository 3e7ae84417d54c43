import JetForm.Tree.Postorder

/-! # Copies between arenas

    Two problems may be traced apart and combined later.  `Arena.adopt` rebuilds
    a tree of one arena in another through the ordinary constructors, so the
    copy shares whatever the receiving arena holds already. -/

namespace JetForm

namespace Arena

/-- Rebuild one node of `source`; `copied` gives the new handles of its
    children. -/
def rebuild (source : Arena) (copied : Std.HashMap Nat Nat) (node : Node) : Building Nat := do
  let child := fun (c : Nat) => copied[c]?.getD c
  match node with
  | .leaf var => leaf var
  | .independent => independent
  | .constant v => constantOf (source.value v)
  | .slot index var order => slot index var order
  | .unary op c => unary op (child c)
  | .derivative c order => derivative (child c) order
  | .binary op (.valueTree v t) => do
    let v ← intern (source.value v)
    binary op (.valueTree v (child t))
  | .binary op (.treeValue t v) => do
    let v ← intern (source.value v)
    binary op (.treeValue (child t) v)
  | .binary op (.treeTree l r) => binary op (.treeTree (child l) (child r))

/-- Copy the tree below `h` of `source`; both registries must have the same
    size. -/
def adopt (source : Arena) (h : Nat) : Building Nat := do
  let size := (← get).size
  if source.size ≠ size then throw (.registrySizes size source.size)
  let copied ← source.sweepM [h] (∅ : Std.HashMap Nat Nat) fun copied c node => do
    return copied.insert c (← rebuild source copied node)
  return copied[h]?.getD h

end Arena

end JetForm
