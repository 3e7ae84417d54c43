import JetForm.Number.Order
import JetForm.Operation.Kernel
import JetForm.Program.Cell

/-! # Arrays outside of trees

    Arrays are computed beside the trees and end up in one only if they have no
    axes.  An array is held on the host or on the device.  Elementary functions
    compute on the device, and whatever meets an array of the device is
    computed there.

    The kind of a device array can be weak: it came from plain numbers alone
    and gives way to the kind of any other array. -/

namespace JetForm

/-- Where an array is held. -/
inductive Place where
  | host
  | device (weak : Bool)

/-- An array with its place. -/
structure HeldArray where
  tensor : Tensor Entry
  place : Place

/-! ## Kinds -/

/-- The kind of a value, and whether it is weak. -/
structure Firmness where
  kind : Entry.Kind
  weak : Bool

namespace Firmness

/-- The firmness of values that meet.  The wider kind counts; a weak complex
    kind becomes firm beside firm doubles. -/
def join (a b : Firmness) : Firmness :=
  if a.kind = b.kind then ⟨a.kind, a.weak && b.weak⟩
  else
    let (wide, narrow) := if a.kind.rank ≤ b.kind.rank then (b, a) else (a, b)
    let hardens := wide.kind = .complex && narrow.kind = .real && !narrow.weak
    ⟨wide.kind, wide.weak && !hardens⟩

end Firmness

/-- The firmness of a plain number. -/
def Number.firmness : Number → Firmness
  | .bool _ => ⟨.truth, false⟩
  | .int _ => ⟨.whole, true⟩
  | .double _ _ => ⟨.real, true⟩
  | .complex _ => ⟨.complex, true⟩
  | .wide x _ => ⟨x.kind, false⟩

/-- Does the operation leave a weak kind weak?  Those that multiply by a
    constant of the device do not. -/
def UnaryOp.keepsWeakness : UnaryOp → Bool
  | .acosd | .acscd | .airy | .asecd | .asind | .atand | .cosd | .cotd | .cscd | .log10 | .log2
  | .secd | .sind | .tand => false
  | _ => true

namespace HeldArray

/-- The kind of the entries. -/
def kind (x : HeldArray) : Entry.Kind :=
  match x.tensor.entries[0]? with
  | some e => e.kind
  | none => .real

/-- The firmness of an array.  Arrays of the host are firm. -/
def firmness (x : HeldArray) : Firmness :=
  match x.place with
  | .host => ⟨x.kind, false⟩
  | .device weak => ⟨x.kind, weak⟩

/-- Is the array held on the device? -/
def onDevice (x : HeldArray) : Bool :=
  match x.place with
  | .host => false
  | .device _ => true

/-- An array without axes on the host. -/
def ofEntry (x : Entry) : HeldArray :=
  ⟨.scalar x, .host⟩

/-- A vector of ones on the host. -/
def ones (count : Nat) : HeldArray :=
  ⟨⟨[count], Array.replicate count (.real 1)⟩, .host⟩

/-! ## Arithmetic -/

/-- The action of an operation at an entry, with the firmness of the result. -/
def firmnessAfter (op : UnaryOp) (v : Firmness) (plain : Bool) : Bool :=
  let weak := if op.invertsArgument then plain || (v.join ⟨.real, true⟩).weak else v.weak
  weak && op.keepsWeakness

/-- An elementary function of a plain number. -/
def ofNumber (op : UnaryOp) (v : Number) : Except Fault HeldArray := do
  let plain :=
    match v with
    | .wide _ _ => false
    | _ => true
  return ⟨.scalar (← op.onNumber v), .device (firmnessAfter op v.firmness plain)⟩

/-- An elementary function of an array. -/
def elementary (op : UnaryOp) (x : HeldArray) : Except Fault HeldArray := do
  let weak := x.onDevice && firmnessAfter op x.firmness false
  return ⟨← x.tensor.mapM op.onEntry, .device weak⟩

/-- A sign or the magnitude, computed where the array is. -/
def sign (op : UnaryOp) (x : HeldArray) : Except Fault HeldArray := do
  return ⟨← x.tensor.mapM op.onEntry, x.place⟩

/-- Entries of two arrays joined after broadcasting. -/
def zip (f : Entry → Entry → Except Fault Entry) (x y : HeldArray) : Except Fault (Tensor Entry) :=
  match Tensor.zip default default f x.tensor y.tensor with
  | some z => z.mapM id
  | none => .error (if x.onDevice || y.onDevice then .extents else .shapes)

/-- A binary operation on two arrays. -/
def combine (op : BinaryOp) (x y : HeldArray) : Except Fault HeldArray := do
  if x.onDevice || y.onDevice then
    return ⟨← zip (Entry.combine op) x y, .device (x.firmness.join y.firmness).weak⟩
  else return ⟨← zip (Number.combineScalars op) x y, .host⟩

/-- A binary operation with a plain number on the right.  A power with a whole
    exponent keeps the firmness of its base. -/
def combineRight (op : BinaryOp) (x : HeldArray) (v : Number) : Except Fault HeldArray := do
  if x.onDevice then
    let weak :=
      if op = .power && v.toInt?.isSome then x.firmness.weak
      else (x.firmness.join v.firmness).weak
    return ⟨← x.tensor.mapM (← v.rightOf op), .device weak⟩
  else combine op x (ofEntry (← v.beside x.kind))

/-- A binary operation with a plain number on the left. -/
def combineLeft (op : BinaryOp) (v : Number) (x : HeldArray) : Except Fault HeldArray := do
  if x.onDevice then
    let e ← v.toEntry
    return ⟨← x.tensor.mapM (Entry.combine op e), .device (v.firmness.join x.firmness).weak⟩
  else combine op (ofEntry (← v.beside x.kind)) x

/-! ## Operators without a rule -/

/-- The sum of the products of the entries of two vectors. -/
def dot (x y : HeldArray) : Except Fault (Tensor Entry) := do
  match x.tensor.shape, y.tensor.shape with
  | [m], [n] =>
    if m ≠ n then throw .shapes
    let products ← zip (Entry.combine .times) x y
    Tensor.scalar <$> products.entries.foldlM (Entry.combine .plus) (.real 0)
  | _, _ => throw .shapes

/-- An operator without a rule, on two arrays. -/
def unruled (op : UnruledOp) (x y : HeldArray) : Except Fault HeldArray := do
  let tensor ← if op = .matmul then dot x y else zip (Entry.unruled op) x y
  if x.onDevice || y.onDevice then
    let weak :=
      match op with
      | .compare _ => false
      | _ => (x.firmness.join y.firmness).weak
    return ⟨tensor, .device weak⟩
  else return ⟨tensor, .host⟩

/-- A plain number beside an array, as an array. -/
def beside (v : Number) (x : HeldArray) : Except Fault HeldArray := do
  if x.onDevice then return ⟨.scalar (← v.toEntry), .device v.firmness.weak⟩
  else return ofEntry (← v.beside x.kind)

end HeldArray

end JetForm
