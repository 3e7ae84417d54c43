/-! # Quoted text

    A text inside a message is put in quotes and written so that it can be read
    back: the quote, the backslash and everything that does not print is
    escaped.  Single quotes are preferred, and double ones taken only where
    that spares an escape. -/

namespace JetForm

namespace Quoted

/-- The single quote. -/
def single : Char := Char.ofNat 39

/-- The double quote. -/
def double : Char := '"'

/-- Ranges of characters beyond the seven-bit ones that do not print. -/
def unprintable : List (Nat × Nat) :=
  [(0x80, 0xa0), (0xad, 0xad), (0x600, 0x605), (0x61c, 0x61c), (0x6dd, 0x6dd), (0x70f, 0x70f),
    (0x1680, 0x1680), (0x180e, 0x180e), (0x2000, 0x200f), (0x2028, 0x202f), (0x205f, 0x206f),
    (0x3000, 0x3000), (0xd800, 0xf8ff), (0xfeff, 0xfeff), (0xfff0, 0xfffb), (0xfffe, 0xffff),
    (0xe0000, 0x10ffff)]

/-- Is the character written as it is? -/
def prints (c : Char) : Bool :=
  let n := c.toNat
  if n < 0x80 then 0x20 ≤ n && n < 0x7f
  else !unprintable.any fun (first, last) => first ≤ n && n ≤ last

/-- Hexadecimal digits, with zeros in front. -/
def hexadecimal (width n : Nat) : List Char :=
  let digits := Nat.toDigits 16 n
  List.replicate (width - digits.length) '0' ++ digits

/-- A character between the given quotes. -/
def escaped (quote c : Char) : List Char :=
  if c = quote || c = '\\' then ['\\', c]
  else if c = '\n' then ['\\', 'n']
  else if c = '\r' then ['\\', 'r']
  else if c = '\t' then ['\\', 't']
  else if prints c then [c]
  else
    let n := c.toNat
    if n < 0x100 then '\\' :: 'x' :: hexadecimal 2 n
    else if n < 0x10000 then '\\' :: 'u' :: hexadecimal 4 n
    else '\\' :: 'U' :: hexadecimal 8 n

/-- The quote that spares escapes. -/
def quoteFor (cs : List Char) : Char :=
  if cs.contains single && !cs.contains double then double else single

end Quoted

/-- The text in quotes. -/
def quotedText (s : String) : String :=
  let cs := s.toList
  let quote := Quoted.quoteFor cs
  String.ofList (quote :: cs.flatMap (Quoted.escaped quote) ++ [quote])

end JetForm
