import JetForm.Render.Array
import JetForm.Render.Infix
import JetForm.Render.Quoted
import JetForm.Trace.Workspace

/-! # Operands

    Whatever an operator may be written with.  Only traced expressions, real
    numbers and external functions end up in a tree; the other kinds are
    evaluated at once, or exist to be refused by name. -/

namespace JetForm

/-- A value that can stand in an expression. -/
inductive Operand where
  | traced (e : Traced)
  | number (n : Number)
  | array (x : HeldArray)
  | external (f : External)
  | text (s : String)
  | nothing
  | sequence (items : List Operand)

instance : Inhabited Operand := ⟨.nothing⟩

namespace Operand

/-- Name of the kind of operand. -/
def typeName : Operand → String
  | .traced _ => "TreeVar"
  | .number n => n.typeName
  | .array x => if x.onDevice then "ArrayImpl" else "ndarray"
  | .external ⟨_, .greatest, _⟩ => "builtin_function_or_method"
  | .external _ => "function"
  | .text _ => "str"
  | .nothing => "NoneType"
  | .sequence _ => "list"

mutual

/-- Full written form, as it appears inside a message. -/
def written : Operand → Tracing String
  | .traced e => do
    return "TreeVar(" ++ (← Workspace.check (((← get).arena e.arena).infixText e.handle)) ++ ")"
  | .number n => return n.exactText
  | .array x => return x.text
  | .external ⟨name, .greatest, _⟩ => return "<built-in function " ++ name ++ ">"
  | .external f => return "<function " ++ f.name ++ ">"
  | .text s => return quotedText s
  | .nothing => return "None"
  | .sequence items => do
    return "[" ++ ", ".intercalate (← writtenAll items) ++ "]"

/-- The written forms of several operands. -/
def writtenAll : List Operand → Tracing (List String)
  | [] => return []
  | v :: rest => do
    let text ← written v
    return text :: (← writtenAll rest)

end

/-- The operand as a real number, if it is one. -/
def realNumber? : Operand → Option Number
  | .number n => if n.isReal then some n else none
  | _ => none

/-- A thing of some type that no function takes. -/
def thing (name type : String) : Tracing Value := do
  return .external ⟨name, .inert type (← Workspace.nextSerial), none⟩

/-- The value that stands in a tree when the operand is put there unchecked. -/
def unchecked (x : Operand) : Tracing Value :=
  match x with
  | .number n => return .number n
  | .external f => return .external f
  | .nothing => return .external ⟨x.typeName, .inert x.typeName 0, none⟩
  | .array ⟨_, .host⟩ => thing x.typeName ("numpy." ++ x.typeName)
  | x => thing x.typeName x.typeName

/-- The operand as a traced expression, if it is one. -/
def traced? : Operand → Option Traced
  | .traced e => some e
  | _ => none

/-- The result of array arithmetic.  On the host an array without axes becomes a
    scalar. -/
def ofArray (x : HeldArray) : Tracing Operand :=
  match x.place, x.tensor.shape with
  | .host, [] => .number <$> Workspace.entryLiteral (x.tensor.entries[0]?.getD default)
  | _, _ => return .array x

end Operand

end JetForm
