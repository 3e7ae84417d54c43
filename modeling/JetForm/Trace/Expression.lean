import JetForm.Decimal.Reader
import JetForm.Trace.Operand

/-! # Operations on traced expressions

    Each operation records a node and passes the domain on.  `combine` joins
    two operands, at least one of them traced, in one of three shapes; a value
    that carries breakpoints adds them to the domain of the result.

    Operations without a rule, such as comparisons, fail with their name and
    the first unknown of the expression they were applied to. -/

namespace JetForm

namespace Traced

/-! ## One operand -/

/-- Record a unary operation. -/
def unary (op : UnaryOp) (e : Traced) : Tracing Traced := do
  Traced.make e.arena (← Workspace.within e.arena (Arena.unary op e.handle)) e.domain

/-- Apply the elementary function with the given name. -/
def apply (name : String) (e : Traced) : Tracing Traced := do
  match UnaryOp.ofName? name with
  | some op => e.unary op
  | none => throw (.functionRule name (← e.firstVar))

/-- The derivative of a given order.  Order zero is the expression itself. -/
def diff (e : Traced) (order : Operand) : Tracing Traced := do
  let k? :=
    match order with
    | .number (.bool _) => none
    | .number n => n.toInt?
    | _ => none
  match k? with
  | some (.ofNat 0) => return e
  | some (.ofNat k) =>
    Traced.make e.arena (← Workspace.within e.arena (Arena.derivative e.handle k)) e.domain
  | _ => throw (.orderNegative (← order.written) (← e.firstVar))

/-- Fail because an operation has no rule. -/
def refuse {α : Type} (e : Traced) (op : String) : Tracing α := do
  throw (.operatorRule op (← e.firstVar))

end Traced

/-! ## Two operands -/

namespace Expression

/-- The value that an untraced operand contributes; `e` is the traced operand
    beside it.  What has no axes but is no real number becomes a double. -/
def externalValue (op : String) (v : Operand) (e : Traced) : Tracing Value := do
  match v with
  | .number (.wide x origin) =>
    if (Number.wide x origin).isReal then return .number (.wide x origin)
    else .number <$> Workspace.literal x.toFloat
  | .array ⟨⟨[], entries⟩, _⟩ =>
    .number <$> Workspace.literal (entries[0]?.getD default).toFloat
  | .external f => return .external f
  | v =>
    match v.realNumber? with
    | some n => return .number n
    | none => throw (.operandType v.typeName op (← e.firstVar))

/-- A domain with the breakpoints that a value carries. -/
def extendDomain (d : Domain Float) (v : Value) : Tracing (Domain Float) :=
  match v with
  | .external ⟨_, _, some points⟩ => do
    let other ← Workspace.checkDomain (Domain.create points)
    Workspace.checkDomain (d.union other)
  | _ => pure d

/-- Record a binary operation by name. -/
def binary (op : String) (operands : Operands) : Building Nat :=
  match BinaryOp.ofName? op with
  | some op => Arena.binary op operands
  | none => throw (.binaryRule op)

/-- Join a value and an expression. -/
def joinValue (op : String) (v : Operand) (e : Traced) (operands : Nat → Operands) :
    Tracing Traced := do
  let value ← externalValue op v e
  let h ← Workspace.within e.arena do
    binary op (operands (← Arena.intern value))
  let domain ← extendDomain e.domain value
  Traced.make e.arena h domain

/-- The handle that an expression has in the given arena, into which it is
    copied if it belongs to another. -/
def bring (arena : Nat) (e : Traced) : Tracing Nat := do
  if e.arena = arena then return e.handle
  else
    let source := (← get).arena e.arena
    Workspace.within arena (source.adopt e.handle)

/-- Join two operands by the operation with the given name. -/
def combine (op : String) (left right : Operand) : Tracing Traced := do
  match left, right with
  | .traced l, .traced r => do
    let h ← bring l.arena r
    let domain ← Workspace.checkDomain (l.domain.union r.domain)
    let h ← Workspace.within l.arena (binary op (.treeTree l.handle h))
    Traced.make l.arena h domain
  | .traced l, v => joinValue op v l fun value => .treeValue l.handle value
  | v, .traced r => joinValue op v r fun value => .valueTree value r.handle
  | _, _ => throw (.untracedOperands op)

/-! ## Operands of any kind

    An operation on traced expressions is recorded.  All other operands are
    evaluated at once, and what cannot be evaluated fails without words. -/

/-- A number as a literal, so that an undefined one becomes a value of its own. -/
def fresh (n : Number) : Tracing Operand :=
  match n with
  | .double x _ => .number <$> Workspace.literal x
  | .wide x _ => .number <$> Workspace.entryLiteral x
  | n => return .number n

/-- An evaluated array. -/
def array (x : Except Fault HeldArray) : Tracing Operand := do
  Operand.ofArray (← Workspace.evaluated x)

/-- The operations on a number that need no elementary function. -/
inductive Sign where
  | minus | plus | magnitude

namespace Sign

/-- The operation that is recorded. -/
def op : Sign → UnaryOp
  | .minus => .uminus
  | .plus => .uplus
  | .magnitude => .abs

/-- The rule for plain numbers. -/
def onNumber : Sign → Number → Except Fault Number
  | .minus => Number.negate
  | .plus => Number.positive
  | .magnitude => Number.absolute

/-- Apply the rule.  Changing an undefined number gives another one. -/
def apply (s : Sign) (n : Number) : Tracing Operand := do
  let v ← Workspace.evaluated (s.onNumber n)
  match s with
  | .plus => return .number v
  | _ => fresh v

end Sign

/-- A sign or the magnitude. -/
def sign (s : Sign) (x : Operand) : Tracing Operand := do
  match x with
  | .traced e => .traced <$> e.unary s.op
  | .number n => s.apply n
  | .array x => array (x.sign s.op)
  | _ => throw .argument

/-- Texts and lists are repeated, and joined to each other. -/
def sequenceArithmetic (op : BinaryOp) (left right : Operand) : Tracing Operand :=
  let copies := fun (n : Number) =>
    match n with
    | .double _ _ => none
    | n => n.toInt?.map Int.toNat
  match op, left, right with
  | .plus, .text s, .text t => return .text (s ++ t)
  | .plus, .sequence xs, .sequence ys => return .sequence (xs ++ ys)
  | .times, .text s, .number n | .times, .number n, .text s =>
    match copies n with
    | some k => return .text (String.join (List.replicate k s))
    | none => throw .argument
  | .times, .sequence xs, .number n | .times, .number n, .sequence xs =>
    match copies n with
    | some k => return .sequence (List.replicate k xs).flatten
    | none => throw .argument
  | _, _, _ => throw .argument

/-- An arithmetic operation. -/
def arithmetic (op : BinaryOp) (left right : Operand) : Tracing Operand := do
  match left, right with
  | .traced _, _ | _, .traced _ => .traced <$> combine op.name left right
  | .number a, .number b => fresh (← Workspace.evaluated (Number.combine op a b))
  | .array x, .number b => array (x.combineRight op b)
  | .number a, .array y => array (HeldArray.combineLeft op a y)
  | .array x, .array y => array (x.combine op y)
  | l, r => sequenceArithmetic op l r

/-- An elementary function.  A fault in the function itself keeps its words, and
    so does the inverse of something that has none. -/
def elementary (op : UnaryOp) (x : Operand) : Tracing Operand := do
  match x with
  | .traced e => .traced <$> e.unary op
  | .number n => .array <$> Workspace.check ((HeldArray.ofNumber op n).mapError .fault)
  | .array x => .array <$> Workspace.check ((HeldArray.elementary op x).mapError .fault)
  | x => throw (if op.invertsArgument then .inverse x.typeName else .argument)

/-- A derivative, of traced expressions only. -/
def diff (x order : Operand) : Tracing Operand := do
  match x with
  | .traced e => .traced <$> e.diff order
  | x => throw (.untracedDerivative x.typeName)

/-! ## Conversions -/

/-- A conversion to a plain value, which traced expressions refuse. -/
inductive Conversion where
  | truth | double | integer | index | items | first

namespace Conversion

def name : Conversion → String
  | .truth => "bool"
  | .double => "float"
  | .integer => "int"
  | .index => "index"
  | .items => "iter"
  | .first => "getitem"

end Conversion

/-- A number without its fraction. -/
def truncated (n : Number) : Except Error Int :=
  match n.toInt? with
  | some k => .ok k
  | none =>
    if n.isComplex then .error .argument
    else
      match Binary64.truncate? n.toFloat with
      | some k => .ok k
      | none => .error (.outside (if n.toFloat.isNaN then .value else .overflow))

/-- Convert a number. -/
def convertNumber (c : Conversion) (n : Number) : Tracing Operand := do
  match c, n with
  | .truth, n => return .number (.bool !n.isZero)
  | .double, .double x origin => return .number (.double x origin)
  | .double, n => do
    if n.isComplex then throw .argument
    .number <$> Workspace.literal (← Workspace.evaluated n.toDouble)
  | .integer, n => do return .number (.int (← Workspace.check (truncated n)))
  | .index, .wide (.truth _) _ => throw .argument
  | .index, n =>
    match n.toInt? with
    | some k => return .number (.int k)
    | none => throw .argument
  | .first, .wide _ _ => throw (.outside .index)
  | _, _ => throw .argument

/-- Convert an array.  Only a single entry has a value. -/
def convertArray (c : Conversion) (x : HeldArray) : Tracing Operand := do
  let scalars := x.tensor.entries.toList.map fun e => Operand.number (.ofEntry e)
  match c, x.tensor.shape, scalars with
  | .items, [_], items => return .sequence items
  | .items, _, _ => throw .argument
  | .first, [_], item :: _ => return item
  | .first, _, _ => throw (.outside .index)
  | .index, [], [.number (.wide (.whole n) _)] => return .number (.int n.toInt)
  | .index, _, _ => throw .argument
  | c, _, [.number n] => convertNumber c n
  | .truth, _, _ => throw (.outside .value)
  | _, _, _ => throw .argument

/-- Convert a text. -/
def convertText (c : Conversion) (s : String) : Tracing Operand := do
  match c, s.toList with
  | .truth, cs => return .number (.bool !cs.isEmpty)
  | .double, _ =>
    match Decimal.read? s.trimAscii.toString with
    | some x => .number <$> Workspace.literal x
    | none => throw (.outside .value)
  | .integer, _ =>
    match Decimal.readInt? s.trimAscii.toString with
    | some n => return .number (.int n)
    | none => throw (.outside .value)
  | .items, cs => return .sequence (cs.map fun c => .text (String.singleton c))
  | .first, c :: _ => return .text (String.singleton c)
  | .first, [] => throw (.outside .index)
  | .index, _ => throw .argument

/-- Convert an operand. -/
def convert (c : Conversion) (x : Operand) : Tracing Operand := do
  match c, x with
  | c, .traced e => e.refuse c.name
  | c, .number n => convertNumber c n
  | c, .array x => convertArray c x
  | c, .text s => convertText c s
  | .truth, .nothing => return .number (.bool false)
  | .truth, .external _ => return .number (.bool true)
  | .truth, .sequence items => return .number (.bool !items.isEmpty)
  | .items, .sequence items => return .sequence items
  | .first, .sequence items =>
    match items with
    | item :: _ => return item
    | [] => throw (.outside .index)
  | _, _ => throw .argument

/-! ## Texts with gaps

    The remainder of a text fills its gaps.  A gap starts with a percent sign,
    and its letter says how it is filled. -/

/-- What fills a gap with the given letter. -/
def filling (letter : Char) (v : Operand) : Tracing String := do
  let whole := fun (c : Conversion) => do
    match ← convert c v with
    | .number n => return n.exactText
    | _ => throw .argument
  match letter, v with
  | 's', .text s => return s
  | 's', .number (.wide x _) => return Number.exactText (
      match x with
      | .truth b => .bool b
      | .whole n => .int n.toInt
      | .real x => .ofFloat x
      | .complex z => .complex z)
  | 's', v | 'r', v | 'a', v => v.written
  | 'd', .text _ | 'i', .text _ | 'u', .text _ => throw .argument
  | 'd', _ | 'i', _ | 'u', _ => whole .integer
  | 'c', _ | 'x', _ | 'X', _ | 'o', _ => do
    let _ ← whole .index
    throw .argument
  | 'f', _ | 'F', _ | 'e', _ | 'E', _ | 'g', _ | 'G', _ => do
    let _ ← whole .double
    throw .argument
  | _, _ => throw (.outside .value)

/-- Can the operand be asked for an item by name?  Then it need not fill a
    gap. -/
def hasItems : Operand → Bool
  | .traced _ | .array _ | .sequence _ | .number (.wide _ _) => true
  | _ => false

/-- Fill the gaps of a text.  There is only one operand for all of them. -/
def fill (v : Operand) (used : Bool) : List Char → Tracing String
  | [] => if used || hasItems v then return "" else throw .argument
  | ['%'] => throw (.outside .value)
  | '%' :: '%' :: rest => do return "%" ++ (← fill v used rest)
  | '%' :: '(' :: _ => do
    if !hasItems v then throw .argument
    let _ ← convert .first v
    throw .argument
  | '%' :: letter :: rest => do
    if used then throw .argument
    let text ← filling letter v
    return text ++ (← fill v true rest)
  | c :: rest => do return String.singleton c ++ (← fill v used rest)

/-! ## Operators without a rule -/

/-- Compare values that are neither numbers nor arrays. -/
def compareOthers (c : Comparison) (left right : Operand) : Tracing Operand :=
  match left, right with
  | .text s, .text t => return .number (.bool (c.holds (some (compare s t))))
  | .nothing, .nothing | .sequence [], .sequence [] =>
    if c.isEquality then return .number (.bool (c.holds (some .eq))) else throw .argument
  | .sequence _, .sequence _ => throw .argument
  | .external f, .external g =>
    if c.isEquality then return .number (.bool (c.holds (if f == g then some .eq else none)))
    else throw .argument
  | _, _ => if c.isEquality then return .number (.bool (c.holds none)) else throw .argument

/-- An operator without a rule.  If only the right operand is traced, it is
    asked for the reflected operation; an array of the host on the left asks by
    the name that arrays have for the operation.  Numbers have no product of
    matrices. -/
def unruled (op : UnruledOp) (left right : Operand) : Tracing Operand := do
  match op, left, right with
  | op, .traced e, _ => e.refuse op.name
  | .mod, .text s, v => .text <$> fill v false s.toList
  | .matmul, .number _, .traced e => e.refuse op.name
  | op, .number (.wide _ _), .traced e | op, .array ⟨_, .host⟩, .traced e =>
    throw (.ufuncRule (op.arrayName ++ ".__call__") (← e.firstVar))
  | op, _, .traced e => e.refuse op.reflected.name
  | op, .number a, .number b => fresh (← Workspace.evaluated (Number.unruled op a b))
  | op, .array x, .array y => array (x.unruled op y)
  | op, .array x, .number b => array do x.unruled op (← HeldArray.beside b x)
  | op, .number a, .array y => array do (← HeldArray.beside a y).unruled op y
  | .compare c, l, r => compareOthers c l r
  | _, _, _ => throw .argument

/-! ## Attributes -/

/-- The attributes of an expression that cannot be called without arguments. -/
def valueAttributes : List String :=
  ["arena", "handle", "domain", "info", "diff_order", "height", "mask", "variables", "_new",
    "apply", "_unsupported", "__add__", "__radd__", "__sub__", "__rsub__", "__mul__", "__rmul__",
    "__truediv__", "__rtruediv__", "__pow__", "__rpow__", "__array_ufunc__", "__getitem__",
    "__eq__", "__ne__", "__lt__", "__le__", "__gt__", "__ge__", "__floordiv__", "__rfloordiv__",
    "__mod__", "__rmod__", "__matmul__", "__rmatmul__", "__getattr__", "__getattribute__",
    "__setattr__", "__delattr__", "__format__", "__init__", "__class__", "__dict__", "__doc__",
    "__module__", "__weakref__", "__array_priority__", "__reduce_ex__"]

/-- Call the attribute of an expression with the given name. -/
def tracedAttribute (name : String) (e : Traced) : Tracing Operand := do
  match UnaryOp.ofName? name, name with
  | some op, _ => .traced <$> e.unary op
  | _, "diff" => .traced <$> e.diff (.number (.int 1))
  | _, "__neg__" => .traced <$> e.unary .uminus
  | _, "__pos__" => .traced <$> e.unary .uplus
  | _, "__abs__" => .traced <$> e.unary .abs
  | _, "__bool__" => e.refuse "bool"
  | _, "__float__" => e.refuse "float"
  | _, "__int__" => e.refuse "int"
  | _, "__index__" => e.refuse "index"
  | _, "__iter__" => e.refuse "iter"
  | _, "__repr__" | _, "__str__" => .text <$> (Operand.traced e).written
  | _, "_first_var" =>
    return (← e.firstVar).elim .nothing fun var => .number (.int var)
  | _, name =>
    if valueAttributes.contains name then throw .argument
    else throw (.attribute (Operand.traced e).typeName name)

/-- What is asked of an operand by name. -/
inductive Attribute where
  | derivative (order : Operand)
  | function (name : String)
  | method (name : String)

/-- Ask an operand for one of its attributes.  Only traced expressions have
    any. -/
def ask (x : Operand) (a : Attribute) : Tracing Operand := do
  match x, a with
  | .traced e, .derivative order => .traced <$> e.diff order
  | .traced e, .function name => .traced <$> e.apply name
  | .traced e, .method name => tracedAttribute name e
  | _, _ => throw (.outside .attribute)

/-! ## Calls -/

/-- The value of a polynomial at an operand.  The last coefficient is brought
    into the shape of the operand first. -/
def polynomial (coefficients : List Float) (x : Operand) : Tracing Operand := do
  let last ← Workspace.literal (coefficients.getLast?.getD 0)
  let start ← arithmetic .plus (.number last) (← arithmetic .times (.number (.int 0)) x)
  coefficients.dropLast.foldrM (fun c rest => do
    arithmetic .plus (← arithmetic .times rest x) (.number (← Workspace.literal c))) start

/-- Call an external function with operands, as a function of formulas would be
    called.  The greatest of several arguments compares them, and the greatest
    of a single one asks for its items. -/
def call (f : External) (args : List Operand) : Tracing Operand := do
  match f.law, args with
  | .polynomial coefficients, [x] => polynomial coefficients x
  | .step at_ _ _, [x] => unruled (.compare .lt) x (.number (.ofFloat at_))
  | .constant c, [_] => .number <$> Workspace.literal c
  | .kernel op, [x] => elementary op x
  | .kernel op, args => throw (.argumentCount op.name args.length)
  | .greatest, [x] => convert .items x
  | .greatest, x :: y :: _ => unruled (.compare .gt) y x
  | _, _ => throw .argument

end Expression

end JetForm
