/-! # Arrays with axes

    A tensor has a shape and one entry for each index into it.  Two tensors are
    combined entry by entry after broadcasting: shapes are aligned at their last
    axis, and an axis of length one is repeated as often as needed. -/

namespace JetForm

/-- The entries in row-major order. -/
structure Tensor (α : Type) where
  shape : List Nat
  entries : Array α

namespace Tensor

/-! ## Indices -/

/-- Number of entries of a shape. -/
def volume (shape : List Nat) : Nat :=
  shape.foldr (· * ·) 1

/-- The index with a given position in row-major order. -/
def unravel : List Nat → Nat → List Nat
  | [], _ => []
  | _ :: rest, k => k / volume rest :: unravel rest (k % volume rest)

/-- The position of an index. -/
def ravel : List Nat → List Nat → Nat
  | _ :: rest, i :: index => i * volume rest + ravel rest index
  | _, _ => 0

variable {α β γ : Type}

/-- The tensor with given entries. -/
def ofFn (shape : List Nat) (f : List Nat → α) : Tensor α :=
  ⟨shape, Array.ofFn (n := volume shape) fun k => f (unravel shape k)⟩

/-- The entry at an index, or `fallback` outside the shape. -/
def get (x : Tensor α) (fallback : α) (index : List Nat) : α :=
  x.entries[ravel x.shape index]?.getD fallback

/-- The tensor without axes. -/
def scalar (x : α) : Tensor α :=
  ⟨[], #[x]⟩

def map (f : α → β) (x : Tensor α) : Tensor β :=
  ⟨x.shape, x.entries.map f⟩

/-- The same for a function that can fail; the first failure counts. -/
def mapM {ε : Type} (f : α → Except ε β) (x : Tensor α) : Except ε (Tensor β) :=
  (Tensor.mk x.shape) <$> x.entries.mapM f

/-! ## Broadcasting -/

/-- Broadcasting of shapes that are read from the last axis on. -/
def broadcastReversed : List Nat → List Nat → Option (List Nat)
  | [], ys => some ys
  | xs, [] => some xs
  | x :: xs, y :: ys => do
    let rest ← broadcastReversed xs ys
    if x = y then return x :: rest
    else if x = 1 then return y :: rest
    else if y = 1 then return x :: rest
    else none

/-- The common shape of two shapes, if there is one. -/
def broadcastShape (xs ys : List Nat) : Option (List Nat) :=
  (broadcastReversed xs.reverse ys.reverse).map List.reverse

/-- The index into a shape that an index into a broadcast of it stands for. -/
def project (shape index : List Nat) : List Nat :=
  List.zipWith (fun size i => if size = 1 then 0 else i) shape
    (index.drop (index.length - shape.length))

/-- Combine two tensors entry by entry. -/
def zip (fallbackX : α) (fallbackY : β) (f : α → β → γ) (x : Tensor α) (y : Tensor β) :
    Option (Tensor γ) :=
  (broadcastShape x.shape y.shape).map fun shape =>
    ofFn shape fun index =>
      f (x.get fallbackX (project x.shape index)) (y.get fallbackY (project y.shape index))

/-- The entries at position `i` of the last axis. -/
def lastAxis (x : Tensor α) (fallback : α) (i : Nat) : Tensor α :=
  ofFn x.shape.dropLast fun index => x.get fallback (index ++ [i])

/-- The same entries with an axis of length one more. -/
def insertAxis (x : Tensor α) (position : Nat) : Tensor α :=
  ⟨x.shape.take position ++ 1 :: x.shape.drop position, x.entries⟩

/-- The tensor with its axes in reverse order. -/
def transpose (fallback : α) (x : Tensor α) : Tensor α :=
  ofFn x.shape.reverse fun index => x.get fallback index.reverse

/-- The diagonal matrix of a vector, or the diagonal of a matrix. -/
def diagonal? (zero : α) (x : Tensor α) : Option (Tensor α) :=
  match x.shape with
  | [n] => some (ofFn [n, n] fun index =>
      if index.head? = index.getLast? then x.get zero (index.take 1) else zero)
  | [m, n] => some (ofFn [min m n] fun index => x.get zero (index ++ index))
  | _ => none

/-- Tensors of one shape along a new last axis. -/
def stack (shape : List Nat) (fallback : α) (xs : List (Tensor α)) : Tensor α :=
  let columns := xs.toArray
  ofFn (shape ++ [xs.length]) fun index =>
    match columns[index.getLast?.getD 0]? with
    | some x => x.get fallback index.dropLast
    | none => fallback

end Tensor

end JetForm
