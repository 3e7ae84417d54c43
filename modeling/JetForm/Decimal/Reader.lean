/-! # Reading doubles

    A decimal text is read as the nearest double.  Besides digits with a point
    and an exponent there are the words for infinite and undefined numbers, in
    any mixture of small and capital letters. -/

namespace JetForm

namespace Decimal

namespace Reader

/-- Value of decimal digits. -/
def natural (digits : List Char) : Nat :=
  digits.foldl (fun n c => 10 * n + (c.toNat - '0'.toNat)) 0

/-- Value of decimal digits, if there are any and nothing else. -/
def natural? (cs : List Char) : Option Nat :=
  if !cs.isEmpty && cs.all Char.isDigit then some (natural cs) else none

/-- A sign and what follows it. -/
def signed (cs : List Char) : Bool × List Char :=
  match cs with
  | '-' :: rest => (true, rest)
  | '+' :: rest => (false, rest)
  | cs => (false, cs)

/-- An exponent with its mark, or nothing at all. -/
def exponent? (cs : List Char) : Option Int :=
  match cs with
  | [] => some 0
  | _ :: rest =>
    let (negative, digits) := signed rest
    (natural? digits).map fun n => if negative then -(n : Int) else n

/-- A magnitude in digits. -/
def digits? (cs : List Char) : Option Float :=
  let mantissa := cs.takeWhile (· ≠ 'e')
  let whole := mantissa.takeWhile (· ≠ '.')
  let fraction := (mantissa.dropWhile (· ≠ '.')).drop 1
  match natural? (whole ++ fraction), exponent? (cs.dropWhile (· ≠ 'e')) with
  | some n, some e =>
    let power := e - fraction.length
    some (if n = 0 then 0 else Float.ofScientific n (power < 0) power.natAbs)
  | _, _ => none

/-- A magnitude in digits or words. -/
def magnitude? (cs : List Char) : Option Float :=
  match String.ofList cs with
  | "inf" | "infinity" => some (1 / 0)
  | "nan" => some (0 / 0)
  | _ => digits? cs

end Reader

/-- The double nearest to a decimal text. -/
def read? (s : String) : Option Float :=
  let (negative, rest) := Reader.signed (s.toList.map Char.toLower)
  (Reader.magnitude? rest).map fun x => if negative then -x else x

/-- The integer that a text spells. -/
def readInt? (s : String) : Option Int :=
  let (negative, rest) := Reader.signed s.toList
  (Reader.natural? rest).map fun n => if negative then -(n : Int) else n

end Decimal

end JetForm
