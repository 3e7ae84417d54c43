import JetForm.Json.Basic

/-! # Writing JSON

    The written form is compact and uses ASCII only: all other characters are
    escaped, those beyond four hexadecimal digits as two halves. -/

namespace JetForm

namespace Json

/-- The escape of a code unit. -/
def unitEscape (n : Nat) : String :=
  let digits := Nat.toDigits 16 n
  "\\u" ++ String.ofList (List.replicate (4 - digits.length) '0' ++ digits)

/-- A character inside a string. -/
def charText (c : Char) : String :=
  let n := c.toNat
  if c = '"' then "\\\""
  else if c = '\\' then "\\\\"
  else if 32 ≤ n ∧ n < 127 then c.toString
  else if n < 0x10000 then unitEscape n
  else
    unitEscape (0xD800 + (n - 0x10000) / 0x400) ++ unitEscape (0xDC00 + (n - 0x10000) % 0x400)

/-- A string between quotes. -/
def quoted (s : String) : String :=
  "\"" ++ String.join (s.toList.map charText) ++ "\""

mutual

/-- The written form of a value. -/
def write : Json → String
  | .null => "null"
  | .bool b => if b then "true" else "false"
  | .number text => text
  | .string s => quoted s
  | .array items => "[" ++ ",".intercalate (writeItems items) ++ "]"
  | .object fields => "\x7b" ++ ",".intercalate (writeFields fields) ++ "\x7d"

/-- The written forms of the items of an array. -/
def writeItems : List Json → List String
  | [] => []
  | x :: rest => x.write :: writeItems rest

/-- The written forms of the fields of an object. -/
def writeFields : List (String × Json) → List String
  | [] => []
  | (key, x) :: rest => (quoted key ++ ":" ++ x.write) :: writeFields rest

end

end Json

end JetForm
