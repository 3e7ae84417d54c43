import JetForm.Json.Basic

/-! # Reading JSON

    A reader takes the characters that are left and returns a value with the
    rest behind it, or nothing if the text has no value there.  Values nest, so
    their readers share a bound for the depth of calls; every call consumes a
    character, and the length of the text is enough. -/

namespace JetForm

namespace Json

namespace Reader

/-- The four characters that may stand between values. -/
def isBlank (c : Char) : Bool :=
  c = ' ' || c = '\n' || c = '\t' || c = '\r'

/-- The text without blanks in front. -/
def skip (cs : List Char) : List Char :=
  cs.dropWhile isBlank

/-! ## Strings -/

/-- Value of a hexadecimal digit. -/
def hexDigit (c : Char) : Nat :=
  if c.isDigit then c.toNat - '0'.toNat
  else c.toLower.toNat - 'a'.toNat + 10

/-- Value of hexadecimal digits. -/
def hexValue (cs : List Char) : Nat :=
  cs.foldl (fun n c => 16 * n + hexDigit c) 0

/-- What a character behind a backslash stands for. -/
def escaped (c : Char) : Char :=
  match c with
  | 'n' => '\n'
  | 't' => '\t'
  | 'r' => '\r'
  | 'b' => '\x08'
  | 'f' => '\x0c'
  | c => c

/-- The code units of a string behind its opening quote, and the rest behind the
    closing one.  A character that is not escaped is one unit. -/
def units : List Char → Option (List Nat × List Char)
  | '"' :: rest => some ([], rest)
  | '\\' :: 'u' :: a :: b :: c :: d :: rest =>
    (units rest).map fun (us, rest) => (hexValue [a, b, c, d] :: us, rest)
  | '\\' :: c :: rest => (units rest).map fun (us, rest) => ((escaped c).toNat :: us, rest)
  | c :: rest => (units rest).map fun (us, rest) => (c.toNat :: us, rest)
  | [] => none

/-- Characters of code units; a high and a low half make one character. -/
def joined : List Nat → List Char
  | high :: low :: rest =>
    if 0xD800 ≤ high ∧ high < 0xDC00 ∧ 0xDC00 ≤ low ∧ low < 0xE000 then
      Char.ofNat (0x10000 + (high - 0xD800) * 0x400 + (low - 0xDC00)) :: joined rest
    else Char.ofNat high :: joined (low :: rest)
  | [unit] => [Char.ofNat unit]
  | [] => []

/-- A string behind its opening quote. -/
def string (cs : List Char) : Option (String × List Char) :=
  (units cs).map fun (us, rest) => (String.ofList (joined us), rest)

/-! ## Values -/

/-- Characters of numbers and of the three words. -/
def isWordChar (c : Char) : Bool :=
  c.isAlphanum || c = '+' || c = '-' || c = '.'

/-- A word or a number. -/
def word (cs : List Char) : Option (Json × List Char) :=
  let rest := cs.dropWhile isWordChar
  match String.ofList (cs.takeWhile isWordChar) with
  | "" => none
  | "null" => some (.null, rest)
  | "true" => some (.bool true, rest)
  | "false" => some (.bool false, rest)
  | text => some (.number text, rest)

mutual

/-- A value. -/
def value : Nat → List Char → Option (Json × List Char)
  | 0, _ => none
  | depth + 1, cs =>
    match skip cs with
    | '"' :: rest => (string rest).map fun (s, rest) => (.string s, rest)
    | '[' :: rest =>
      match skip rest with
      | ']' :: rest => some (.array [], rest)
      | rest => (items depth rest).map fun (xs, rest) => (.array xs, rest)
    | '\x7b' :: rest =>
      match skip rest with
      | '\x7d' :: rest => some (.object [], rest)
      | rest => (fields depth rest).map fun (fs, rest) => (.object fs, rest)
    | rest => word rest

/-- The items of an array behind its opening bracket. -/
def items : Nat → List Char → Option (List Json × List Char)
  | 0, _ => none
  | depth + 1, cs =>
    match value depth cs with
    | none => none
    | some (x, rest) =>
      match skip rest with
      | ',' :: rest => (items depth rest).map fun (xs, rest) => (x :: xs, rest)
      | ']' :: rest => some ([x], rest)
      | _ => none

/-- The fields of an object behind its opening brace. -/
def fields : Nat → List Char → Option (List (String × Json) × List Char)
  | 0, _ => none
  | depth + 1, cs =>
    match skip cs with
    | '"' :: rest =>
      match string rest with
      | none => none
      | some (key, rest) =>
        match skip rest with
        | ':' :: rest =>
          match value depth rest with
          | none => none
          | some (x, rest) =>
            match skip rest with
            | ',' :: rest => (fields depth rest).map fun (fs, rest) => ((key, x) :: fs, rest)
            | '\x7d' :: rest => some ([(key, x)], rest)
            | _ => none
        | _ => none
    | _ => none

end

end Reader

/-- The value that a text holds, with nothing but blanks around it. -/
def read? (s : String) : Option Json :=
  match Reader.value (s.length + 1) s.toList with
  | some (j, rest) => if (Reader.skip rest).isEmpty then some j else none
  | none => none

end Json

end JetForm
