import JetForm.Tree.Postorder

/-! # Labels of leaves -/

namespace JetForm

namespace Arena

/-- Name of an unknown: taken from the list, or `u` and its number if the list
    is empty. -/
def variableName (names : List String) (var : Nat) : Except Error String :=
  if names.isEmpty then .ok s!"u{var}"
  else match names[var]? with
    | some name => .ok name
    | none => .error .nameIndex

/-- The label of a node without children. -/
def leafLabel (a : Arena) (names : List String) (node : Node) : Except Error (Option String) :=
  match node with
  | .constant v => .ok (some (a.value v).label)
  | .leaf var => some <$> variableName names var
  | .independent => .ok (some "t")
  | .slot index _ _ => .ok (some s!"x[{index}]")
  | _ => .ok none

end Arena

end JetForm
