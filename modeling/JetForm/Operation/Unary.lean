/-! # Unary operations

    The elementary functions of one argument and the two signs.  The
    reciprocal functions have names of their own (`sec`, `acoth`), and the
    trigonometric ones exist in degrees too (`sind`, `asecd`). -/

namespace JetForm

/-- The operations on one operand. -/
inductive UnaryOp where
  | abs | acos | acosd | acosh | acot | acoth | acsc | acscd | acsch | airy | asec | asecd
  | asech | asin | asind | asinh | atan | atand | atanh | cos | cosd | cosh | cot | cotd
  | coth | csc | cscd | csch | exp | expm1 | log | log10 | log2 | log1p | pow2 | sec | secd
  | sech | sin | sind | sinh | sqrt | tan | tand | tanh | uminus | uplus
  deriving DecidableEq, Hashable

namespace UnaryOp

/-- Name under which an operation is recorded. -/
def name : UnaryOp → String
  | .abs => "abs"
  | .acos => "acos"
  | .acosd => "acosd"
  | .acosh => "acosh"
  | .acot => "acot"
  | .acoth => "acoth"
  | .acsc => "acsc"
  | .acscd => "acscd"
  | .acsch => "acsch"
  | .airy => "airy"
  | .asec => "asec"
  | .asecd => "asecd"
  | .asech => "asech"
  | .asin => "asin"
  | .asind => "asind"
  | .asinh => "asinh"
  | .atan => "atan"
  | .atand => "atand"
  | .atanh => "atanh"
  | .cos => "cos"
  | .cosd => "cosd"
  | .cosh => "cosh"
  | .cot => "cot"
  | .cotd => "cotd"
  | .coth => "coth"
  | .csc => "csc"
  | .cscd => "cscd"
  | .csch => "csch"
  | .exp => "exp"
  | .expm1 => "expm1"
  | .log => "log"
  | .log10 => "log10"
  | .log2 => "log2"
  | .log1p => "log1p"
  | .pow2 => "pow2"
  | .sec => "sec"
  | .secd => "secd"
  | .sech => "sech"
  | .sin => "sin"
  | .sind => "sind"
  | .sinh => "sinh"
  | .sqrt => "sqrt"
  | .tan => "tan"
  | .tand => "tand"
  | .tanh => "tanh"
  | .uminus => "uminus"
  | .uplus => "uplus"

def all : List UnaryOp :=
  [.abs, .acos, .acosd, .acosh, .acot, .acoth, .acsc, .acscd, .acsch, .airy, .asec, .asecd,
   .asech, .asin, .asind, .asinh, .atan, .atand, .atanh, .cos, .cosd, .cosh, .cot, .cotd,
   .coth, .csc, .cscd, .csch, .exp, .expm1, .log, .log10, .log2, .log1p, .pow2, .sec,
   .secd, .sech, .sin, .sind, .sinh, .sqrt, .tan, .tand, .tanh, .uminus, .uplus]

/-- The operation recorded under a name. -/
def ofName? (s : String) : Option UnaryOp :=
  all.find? (·.name == s)

/-- The two signs, which pass through a derivative. -/
def isSign : UnaryOp → Bool
  | .uminus | .uplus => true
  | _ => false

theorem eq_of_isSign {op : UnaryOp} (sign : op.isSign = true) : op = .uminus ∨ op = .uplus := by
  cases op with
  | uminus => exact Or.inl rfl
  | uplus => exact Or.inr rfl
  | _ => cases sign

end UnaryOp

end JetForm
