/-! # Structured values

    Problems and answers are exchanged as JSON.  A number keeps the text it was
    written with, because `2` and `2.0` are different constants and `-0.0` has
    a sign. -/

namespace JetForm

/-- A JSON value. -/
inductive Json where
  | null
  | bool (b : Bool)
  | number (text : String)
  | string (s : String)
  | array (items : List Json)
  | object (fields : List (String × Json))

namespace Json

instance : Inhabited Json := ⟨.null⟩

/-! ## Parts

    A part that does not exist reads as `null`, as an empty list or as an empty
    text. -/

/-- The field with the given name, if there is one. -/
def field? (j : Json) (key : String) : Option Json :=
  match j with
  | .object fields => fields.lookup key
  | _ => none

/-- The field with the given name. -/
def field (j : Json) (key : String) : Json :=
  (j.field? key).getD .null

/-- A field that is neither missing nor `null`. -/
def given? (j : Json) (key : String) : Option Json :=
  match j.field? key with
  | some .null => none
  | v => v

/-- The items of an array. -/
def items : Json → List Json
  | .array items => items
  | _ => []

/-- The fields of an object in the order they were written. -/
def fields : Json → List (String × Json)
  | .object fields => fields
  | _ => []

/-- A string, or a number as it was written. -/
def text : Json → String
  | .string s => s
  | .number s => s
  | _ => ""

/-- Is the value `true`? -/
def isTrue : Json → Bool
  | .bool b => b
  | _ => false

/-! ## Nesting -/

/-- The lengths of nested arrays, each read off the first item. -/
def shape : Json → List Nat
  | .array [] => [0]
  | .array (x :: rest) => (rest.length + 1) :: x.shape
  | _ => []

mutual

/-- The values inside nested arrays in order. -/
def leaves : Json → List Json
  | .array items => leavesOfAll items
  | x => [x]

/-- The values inside several nested arrays. -/
def leavesOfAll : List Json → List Json
  | [] => []
  | x :: rest => x.leaves ++ leavesOfAll rest

end

end Json

end JetForm
