import JetForm.Trace.Expression

/-! # Functions of an array library

    A function of an array library has a fixed number of inputs and results.
    Behind the inputs a call may name places for the results.  Applied to a
    traced expression, plain calls of the functions with a rule are recorded and
    all others refused by name; otherwise the function is evaluated at once.

    The library itself looks at the number of arguments first. -/

namespace JetForm

/-- How a function is called: plainly, with a keyword, or through one of its
    methods. -/
inductive CallStyle where
  | plain
  | keyword
  | method (name : String)

namespace ArrayFunction

/-! ## Tables -/

/-- The operation that records a function. -/
def rule? (name : String) : Option String :=
  [("absolute", "abs"), ("fabs", "abs"), ("arccos", "acos"), ("arccosh", "acosh"),
    ("arcsin", "asin"), ("arcsinh", "asinh"), ("arctan", "atan"), ("arctanh", "atanh"),
    ("cos", "cos"), ("cosh", "cosh"), ("exp", "exp"), ("exp2", "pow2"), ("expm1", "expm1"),
    ("log", "log"), ("log10", "log10"), ("log1p", "log1p"), ("log2", "log2"),
    ("negative", "uminus"), ("positive", "uplus"), ("sin", "sin"), ("sinh", "sinh"),
    ("sqrt", "sqrt"), ("tan", "tan"), ("tanh", "tanh"), ("add", "plus"), ("subtract", "minus"),
    ("multiply", "times"), ("divide", "rdivide"), ("true_divide", "rdivide"),
    ("power", "power")].lookup name

/-- The name that a function calls itself, where it has more than one. -/
def ownName (name : String) : String :=
  ([("abs", "absolute"), ("acos", "arccos"), ("acosh", "arccosh"), ("asin", "arcsin"),
    ("asinh", "arcsinh"), ("atan", "arctan"), ("atan2", "arctan2"), ("atanh", "arctanh"),
    ("bitwise_invert", "invert"), ("bitwise_left_shift", "left_shift"),
    ("bitwise_not", "invert"), ("bitwise_right_shift", "right_shift"), ("conj", "conjugate"),
    ("mod", "remainder"), ("pow", "power"), ("true_divide", "divide")].lookup name).getD name

/-- The functions that fold an array, with the function of two inputs that they
    fold it by. -/
def foldedBy? (name : String) : Option String :=
  [("sum", "add"), ("prod", "multiply"), ("max", "maximum"), ("amax", "maximum"),
    ("min", "minimum"), ("amin", "minimum"), ("any", "logical_or"),
    ("all", "logical_and")].lookup name

/-- The functions of one input. -/
def unaryNames : List String :=
  ["absolute", "arccos", "arccosh", "arcsin", "arcsinh", "arctan", "arctanh", "bitwise_count",
    "cbrt", "ceil", "conjugate", "cos", "cosh", "deg2rad", "degrees", "exp", "exp2", "expm1",
    "fabs", "floor", "frexp", "invert", "isfinite", "isinf", "isnan", "isnat", "log", "log10",
    "log1p", "log2", "logical_not", "modf", "negative", "positive", "rad2deg", "radians",
    "reciprocal", "rint", "sign", "signbit", "sin", "sinh", "spacing", "sqrt", "square", "tan",
    "tanh", "trunc"]

/-- The functions of two inputs. -/
def binaryNames : List String :=
  ["add", "arctan2", "bitwise_and", "bitwise_or", "bitwise_xor", "copysign", "divide", "divmod",
    "equal", "float_power", "floor_divide", "fmax", "fmin", "fmod", "gcd", "greater",
    "greater_equal", "heaviside", "hypot", "lcm", "ldexp", "left_shift", "less", "less_equal",
    "logaddexp", "logaddexp2", "logical_and", "logical_or", "logical_xor", "matmul", "matvec",
    "maximum", "minimum", "multiply", "nextafter", "not_equal", "power", "remainder",
    "right_shift", "subtract", "vecdot", "vecmat"]

/-- The number of inputs of a function. -/
def inputCount? (name : String) : Option Nat :=
  if unaryNames.contains name then some 1
  else if binaryNames.contains name then some 2
  else none

/-- The number of results of a function. -/
def resultCount (name : String) : Nat :=
  if ["divmod", "frexp", "modf"].contains name then 2 else 1

/-! ## Evaluation -/

/-- An operand as an array of the host.  Only numbers and arrays are. -/
def arrayOf? : Operand → Option HeldArray
  | .number n =>
    match n.toEntry with
    | .ok x => some (.ofEntry x)
    | .error _ => none
  | .array x => some ⟨x.tensor, .host⟩
  | _ => none

/-- Functions of one double that have no rule. -/
def onFloat? (name : String) : Option (Float → Float) :=
  [("cbrt", Float.cbrt), ("deg2rad", (· * degree)), ("radians", (· * degree)),
    ("rad2deg", (· * radian)), ("degrees", (· * radian))].lookup name

/-- Functions of one double that leave integers as they are. -/
def onFraction? (name : String) : Option (Float → Float) :=
  [("floor", Float.floor), ("ceil", Float.ceil),
    ("trunc", fun x => if x < 0 then x.ceil else x.floor)].lookup name

/-- Questions about one double. -/
def onClass? (name : String) : Option (Float → Bool) :=
  [("isnan", Float.isNaN), ("isinf", Float.isInf), ("isfinite", Float.isFinite)].lookup name

/-- Functions of two doubles that have no rule. -/
def onFloats? (name : String) : Option (Float → Float → Float) :=
  [("arctan2", Float.atan2), ("float_power", (· ^ ·)),
    ("hypot", fun x y => ComplexNumber.abs ⟨x, y⟩)].lookup name

/-- A function of one input without a rule, at an entry. -/
def plainUnary (name : String) (x : Entry) : Except Fault Entry :=
  match name, x with
  | "square", x => Entry.combine .times x x
  | "conjugate", .complex z => .ok (.complex z.conjugate)
  | "conjugate", x => .ok x
  | "logical_not", x => .ok (.truth !x.isTrue)
  | "sign", .whole n => .ok (.whole (if n < 0 then -1 else if n = 0 then 0 else 1))
  | "sign", .real x => .ok (.real (if x < 0 then -1 else if 0 < x then 1 else x))
  | "reciprocal", .real x => .ok (.real (1 / x))
  | name, x =>
    match onFloat? name, onFraction? name, onClass? name, x with
    | _, _, _, .complex _ => .error .unevaluable
    | some f, _, _, x => .ok (.real (f x.toFloat))
    | _, some f, _, .real x => .ok (.real (f x))
    | _, some _, _, x => .ok x
    | _, _, some f, x => .ok (.truth (f x.toFloat))
    | _, _, _, _ => .error .unevaluable

/-- The greater or the smaller one of two entries in their wider kind.  An
    undefined one counts if `strict`, and otherwise gives way. -/
def extreme (greater strict : Bool) (x y : Entry) : Except Fault Entry :=
  match x.kind.join y.kind with
  | .complex => .error .unevaluable
  | .real =>
    let (a, b) := (x.toFloat, y.toFloat)
    let chosen := if greater then (if a < b then b else a) else (if b < a then b else a)
    .ok (.real (if a.isNaN then (if strict then a else b)
      else if b.isNaN then (if strict then b else a) else chosen))
  | .whole =>
    let (m, n) := (x.toWord, y.toWord)
    .ok (.whole (if greater then (if m < n then n else m) else (if n < m then n else m)))
  | .truth => .ok (.truth (if greater then x.isTrue || y.isTrue else x.isTrue && y.isTrue))

/-- A function of two inputs without a rule, at two entries. -/
def plainBinary (name : String) (x y : Entry) : Except Fault Entry :=
  match name with
  | "maximum" => extreme true true x y
  | "minimum" => extreme false true x y
  | "fmax" => extreme true false x y
  | "fmin" => extreme false false x y
  | "logical_and" => .ok (.truth (x.isTrue && y.isTrue))
  | "logical_or" => .ok (.truth (x.isTrue || y.isTrue))
  | "logical_xor" => .ok (.truth (x.isTrue != y.isTrue))
  | name =>
    match onFloats? name, x.kind.join y.kind with
    | none, _ | _, .complex => .error .unevaluable
    | some f, _ => .ok (.real (f x.toFloat y.toFloat))

/-- A function of one input at an entry. -/
def onEntry (name : String) (x : Entry) : Except Fault Entry :=
  match name, (rule? name).bind UnaryOp.ofName?, x with
  | "positive", _, .truth _ => .error .truthArithmetic
  | "fabs", _, .complex _ => .error .unevaluable
  | "fabs", _, x => .ok (.real x.toFloat.abs)
  | _, some op, x => op.onEntry x
  | name, none, x => plainUnary name x

/-- Evaluate a function of one input. -/
def evaluateUnary (name : String) (v : Operand) : Tracing Operand :=
  match arrayOf? v with
  | some x => Expression.array do return ⟨← x.tensor.mapM (onEntry name), .host⟩
  | none => throw .argument

/-- Evaluate a function of two inputs.  Integers that do not fit into a word are
    combined like plain numbers. -/
def evaluateBinary (name : String) (v w : Operand) : Tracing Operand :=
  match (rule? name).bind BinaryOp.ofName?, UnruledOp.ofArrayName? name, arrayOf? v, arrayOf? w with
  | some op, _, some x, some y => Expression.array (x.combine op y)
  | none, some op, some x, some y => Expression.array (x.unruled op y)
  | none, none, some x, some y => Expression.array do
    return ⟨← HeldArray.zip (plainBinary name) x y, .host⟩
  | some op, _, _, _ =>
    match v, w with
    | .number _, .number _ => Expression.arithmetic op v w
    | _, _ => throw .argument
  | _, _, _, _ => throw .argument

/-- Evaluate a function of untraced inputs. -/
def evaluate (name : String) (inputs : List Operand) : Tracing Operand :=
  match inputs with
  | [v] => evaluateUnary name v
  | [v, w] => evaluateBinary name v w
  | _ => throw .argument

/-! ## Calls -/

/-- Record a plain call. -/
def record (name : String) (e : Traced) (inputs : List Operand) : Tracing Operand := do
  match rule? name, inputs with
  | some op, [.traced e] => .traced <$> e.apply op
  | some op, [l, r] => .traced <$> Expression.combine op l r
  | _, _ => throw (.ufuncRule (name ++ ".__call__") (← e.firstVar))

/-- A place for a result that was left open. -/
def isOpen : Operand → Bool
  | .nothing => true
  | _ => false

/-- Call a function with the given number of inputs. -/
def invoke (name : String) (count : Nat) (keyword : Bool) (args : List Operand) :
    Tracing Operand := do
  if args.length < count || count + resultCount name < args.length then throw .argument
  let inputs := args.take count
  let results := (args.drop count).filter (!isOpen ·)
  match args.findSome? Operand.traced? with
  | some e =>
    if keyword || !results.isEmpty then
      throw (.ufuncRule (name ++ ".__call__") (← e.firstVar))
    else record name e inputs
  | none => if results.isEmpty then evaluate name inputs else throw .argument

/-- Call a method of a function.  Most of them exist for functions of two
    inputs and one result only. -/
def invokeMethod (name : String) (count : Nat) (method : String) (args : List Operand) :
    Tracing Operand := do
  let needed := if method = "outer" || method = "reduceat" || method = "at" then 2 else 1
  match method with
  | "__call__" => invoke name count false args
  | "reduce" | "accumulate" | "reduceat" | "outer" | "at" =>
    if method ≠ "at" && (count ≠ 2 || (method ≠ "outer" && resultCount name ≠ 1)) then
      throw (.outside .value)
    if args.length < needed || (method = "outer" && args.length ≠ needed) then throw .argument
    match args.findSome? Operand.traced? with
    | some e => throw (.ufuncRule (name ++ "." ++ method) (← e.firstVar))
    | none => throw .argument
  | _ => throw (.outside .attribute)

/-- Call the function with the given name. -/
def call (name : String) (style : CallStyle) (args : List Operand) : Tracing Operand :=
  let name := ownName name
  match inputCount? name, style with
  | none, .plain | none, .keyword =>
    match foldedBy? name with
    | some f => invokeMethod f 2 "reduce" args
    | none => throw (.outside .attribute)
  | none, _ => throw (.outside .attribute)
  | some count, .plain => invoke name count false args
  | some count, .keyword => invoke name count true args
  | some count, .method method => invokeMethod name count method args

end ArrayFunction

end JetForm
