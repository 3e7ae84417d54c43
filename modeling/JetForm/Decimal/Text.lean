import JetForm.Decimal.Digits

/-! # Written forms of a double

    Four forms are in use.  `scientific` and `snapped` write computed results
    with a fixed number of digits.  `general` writes labels and points inside
    messages with up to six digits.  `exactText` writes a double so that it
    reads back. -/

namespace JetForm

namespace Decimal

/-- Exponents are written with a sign and at least two digits. -/
def exponentText (e : Int) : String :=
  let magnitude := toString e.natAbs
  "e" ++ (if e < 0 then "-" else "+") ++ (if magnitude.length < 2 then "0" else "") ++ magnitude

/-- One digit, a point, the other digits. -/
def pointed : List Char → String
  | [] => "0"
  | [d] => String.ofList [d]
  | d :: rest => String.ofList (d :: '.' :: rest)

/-- Digits written out positionally: the leading one stands at `10 ^ exponent`.
    No point is written when no digit follows it. -/
def positional (digits : List Char) (exponent : Int) : String :=
  if exponent < 0 then
    String.ofList (['0', '.'] ++ List.replicate (-exponent - 1).toNat '0' ++ digits)
  else
    let whole := exponent.toNat + 1
    let integer := digits.take whole ++ List.replicate (whole - digits.length) '0'
    let fraction := digits.drop whole
    String.ofList (if fraction.isEmpty then integer else integer ++ '.' :: fraction)

/-- Text of the numbers that have no digits, and of zero; `number` writes the
    magnitude of all others. -/
def framed (x : Float) (zero : String) (number : Nat → Int → String) : String :=
  match Binary64.ofFloat x with
  | .undefined => "nan"
  | .infinite negative => if negative then "-inf" else "inf"
  | .finite negative mantissa exponent =>
    (if negative then "-" else "") ++ (if mantissa = 0 then zero else number mantissa exponent)

/-- `count` significant digits in exponent form. -/
def scientific (count : Nat) (x : Float) : String :=
  framed x (pointed (List.replicate count '0') ++ exponentText 0) fun mantissa exponent =>
    let d := rounded count mantissa exponent
    pointed (Nat.toDigits 10 d.digits) ++ exponentText d.exponent

/-- A computed result: `count` significant digits, and a bare `0` for zero and
    for every magnitude below `snap`. -/
def snapped (count : Nat) (snap : Float) (x : Float) : String :=
  if x == 0 || x.abs < snap then "0" else scientific count x

/-- Six significant digits without trailing zeros; positional while the leading
    digit lies between `10 ^ -4` and `10 ^ 5`. -/
def general (x : Float) : String :=
  framed x "0" fun mantissa exponent =>
    let d := rounded 6 mantissa exponent
    if -4 ≤ d.exponent && d.exponent < 6 then positional d.trimmed d.exponent
    else pointed d.trimmed ++ exponentText d.exponent

/-- The shortest text that reads back as the same double.  It is positional
    while the leading digit lies between `10 ^ -4` and `10 ^ 15`, and then has
    a digit after the point. -/
def exactText (x : Float) : String :=
  framed x "0.0" fun mantissa exponent =>
    let d := (shortest mantissa exponent).2
    if -4 ≤ d.exponent && d.exponent < 16 then
      let digits := d.trimmed
      let body := positional digits d.exponent
      if (digits.length : Int) ≤ d.exponent + 1 then body ++ ".0" else body
    else pointed d.trimmed ++ exponentText d.exponent

/-- The same without a zero after the point. -/
def bareText (x : Float) : String :=
  let text := exactText x
  if text.endsWith ".0" then (text.dropEnd 2).toString else text

end Decimal

end JetForm
