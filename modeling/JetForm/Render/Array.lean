import JetForm.Decimal.Text
import JetForm.Trace.HeldArray

/-! # Written form of arrays

    Entries are written with at most eight digits behind the point, and always
    with a point; very large and very small ones in exponent form.  The entries
    of a vector are separated by commas and broken into lines.  Of a vector with
    more than a thousand entries only the ends are written. -/

namespace JetForm

namespace ArrayText

/-! ## Entries -/

/-- The digits with a point behind the first one, even if it is the last. -/
def pointed : List Char → String
  | [d] => String.ofList [d, '.']
  | ds => Decimal.pointed ds

/-- Digits behind the point are kept up to the eighth, without zeros at the
    end. -/
def positional (mantissa : Nat) (exponent : Int) : String :=
  let (count, d) := Decimal.shortest mantissa exponent
  if (count : Int) ≤ d.exponent + 9 then
    let digits := d.trimmed
    let body := Decimal.positional digits d.exponent
    if (digits.length : Int) ≤ d.exponent + 1 then body ++ "." else body
  else
    let scaled := ((Ratio.ofBinary mantissa exponent).scaleTen 8).roundEven
    let fraction := Nat.toDigits 10 (scaled % Nat.pow 10 8)
    let padded := List.replicate (8 - fraction.length) '0' ++ fraction
    let kept := (padded.reverse.dropWhile (· = '0')).reverse
    toString (scaled / Nat.pow 10 8) ++ "." ++ String.ofList kept

/-- Nine digits at most, and an exponent. -/
def scientific (mantissa : Nat) (exponent : Int) : String :=
  let (count, shortest) := Decimal.shortest mantissa exponent
  let d := if count ≤ 9 then shortest else Decimal.rounded 9 mantissa exponent
  pointed d.trimmed ++ Decimal.exponentText d.exponent

/-- A double; the exponent form is used below `10 ^ -4` and from `10 ^ 8` on. -/
def double (x : Float) : String :=
  Decimal.framed x "0." (if x.abs < 1e-4 || 1e8 ≤ x.abs then scientific else positional)

/-- An entry.  Truth values inside a vector take the width of the longer one. -/
def entry (inVector : Bool) : Entry → String
  | .truth b => if inVector && b then " True" else Number.truthText b
  | .whole n => toString n.toInt
  | .real x => double x
  | .complex z =>
    let imaginary := double z.im
    double z.re ++ (if imaginary.startsWith "-" then "" else "+") ++ imaginary ++ "j"

/-! ## Vectors -/

/-- The words of a vector: all entries, or three at each end. -/
def words (entries : List Entry) : List String :=
  if entries.length ≤ 1000 then entries.map (entry true)
  else
    (entries.take 3).map (entry true) ++ ["..."]
      ++ (entries.drop (entries.length - 3)).map (entry true)

/-- The first column of each line behind the first. -/
def margin : String := "       "

/-- Add a word to the last line, or start a new line if it would become longer
    than 73 columns. -/
def addWord (lines : List String × String) (word : String) : List String × String :=
  let (done, line) := lines
  if line.length ≤ margin.length || line.length + 2 + word.length ≤ 73 then
    (done, line ++ (if line.length ≤ margin.length then "" else ", ") ++ word)
  else ((line ++ ",") :: done, margin ++ word)

/-- The words in brackets, broken into lines. -/
def bracketed (words : List String) : String :=
  let (done, line) := words.foldl addWord ([], margin)
  let text := "\n".intercalate (done.reverse ++ [line])
  "[" ++ (text.drop margin.length).toString ++ "]"

/-- The entries of an array. -/
def body (x : Tensor Entry) : String :=
  match x.shape with
  | [] => entry false (x.entries[0]?.getD default)
  | _ => bracketed (words x.entries.toList)

/-- Name of a kind of entry. -/
def kindName : Entry.Kind → String
  | .truth => "bool"
  | .whole => "int64"
  | .real => "float64"
  | .complex => "complex128"

/-- An array of the host names its kind only where no entry shows it, and its
    shape only where entries are left out. -/
def host (x : HeldArray) : String :=
  let size := x.tensor.entries.size
  let note :=
    if size = 0 then ", dtype=" ++ kindName x.kind
    else if 1000 < size then s!", shape=({size},)"
    else ""
  "array(" ++ body x.tensor ++ note ++ ")"

/-- An array of the device always names its kind. -/
def device (x : HeldArray) (weak : Bool) : String :=
  let content := if x.tensor.entries.size = 0 then "[], shape=(0,)" else body x.tensor
  "Array(" ++ content ++ ", dtype=" ++ kindName x.kind ++ (if weak then ", weak_type=True)" else ")")

end ArrayText

/-- The written form of an array. -/
def HeldArray.text (x : HeldArray) : String :=
  match x.place with
  | .host => ArrayText.host x
  | .device weak => ArrayText.device x weak

end JetForm
