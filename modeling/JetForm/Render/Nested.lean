import JetForm.Render.Label

/-! # Nested renderings

    The operation comes first and its operands follow, as in
    `[plus, [diff, u0, 2], [sin, u0]]`. -/

namespace JetForm

/-- A nested form: external operands and derivative orders stay values. -/
inductive Nested where
  | label (s : String)
  | value (v : Value)
  | order (k : Nat)
  | list (items : List Nested)

namespace Arena

/-- The nested form of one node, given those of its children. -/
def nestedNode (a : Arena) (names : List String) (form : Nat → Nested) (node : Node) :
    Except Error Nested := do
  if let some label ← a.leafLabel names node then return .label label
  match node with
  | .unary op child => return .list [.label op.name, form child]
  | .derivative child order => return .list [.label "diff", form child, .order order]
  | .binary op (.valueTree v t) => return .list [.label op.name, .value (a.value v), form t]
  | .binary op (.treeValue t v) => return .list [.label op.name, form t, .value (a.value v)]
  | .binary op (.treeTree l r) => return .list [.label op.name, form l, form r]
  | _ => return .list []

/-- The nested form of the tree below a handle. -/
def nested (a : Arena) (root : Nat) (names : List String := []) : Except Error Nested := do
  let forms ← a.sweepM [root] (∅ : Std.HashMap Nat Nested) fun forms h node => do
    return forms.insert h (← a.nestedNode names (fun c => forms[c]?.getD (.list [])) node)
  return forms[root]?.getD (.list [])

end Arena

end JetForm
