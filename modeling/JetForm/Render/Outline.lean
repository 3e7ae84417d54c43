import JetForm.Render.Label

/-! # Outlines

    One line for each node of the unfolded tree, indented by its depth and
    followed by its metadata. -/

namespace JetForm

namespace Arena

/-- What an outline line says about the node itself. -/
def outlineLabel (a : Arena) (names : List String) (node : Node) : Except Error String := do
  if let some label ← a.leafLabel names node then return label
  match node with
  | .unary op _ => return op.name
  | .derivative _ order => return s!"diff[{order}]"
  | .binary op (.valueTree v _) => return op.name ++ " (" ++ (a.value v).label ++ ", .)"
  | .binary op (.treeValue _ v) => return op.name ++ " (., " ++ (a.value v).label ++ ")"
  | .binary op (.treeTree _ _) => return op.name
  | _ => return ""

/-- The metadata part of an outline line. -/
def outlineInfo (a : Arena) (info : Info) : String :=
  let orders := ", ".intercalate (info.diffOrder.map toString)
  let bits := String.ofList
    ((List.range a.size).map fun i => if info.mask.testBit i then '1' else '0')
  "  diffOrder=[" ++ orders ++ s!"] height={info.height} ID=" ++ bits ++
    match info.coeff with
    | some v => " coeff=" ++ (a.value v).label
    | none => ""

/-- The lines of the tree below a handle. -/
def outline (a : Arena) (h : Nat) (names : List String := []) (indent : String := "  ")
    (depth : Nat := 0) : Except Error (List String) := do
  match a.node? h with
  | none => return []
  | some node =>
    let label ← a.outlineLabel names node
    let line := String.join (List.replicate depth indent) ++ label ++ a.outlineInfo (a.info h)
    let below ← (a.children h).attach.mapM fun c => a.outline c.1 names indent (depth + 1)
    return line :: below.flatten
termination_by h
decreasing_by exact children_lt c.2

end Arena

end JetForm
