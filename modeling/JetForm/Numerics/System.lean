import JetForm.Error
import JetForm.Numerics.Linear
import JetForm.Program.Tensor

/-! # Linear systems given as arrays

    The last two axes of the coefficients are a square matrix.  The right-hand
    side is one vector, or an array whose last two axes are a matrix of columns
    that are solved for one by one.  All axes in front are broadcast. -/

namespace JetForm

namespace Linear

/-- The columns of the solutions of `A x = b` at an index into the axes in
    front; `n` is the number of unknowns and `columns` that of right-hand
    sides. -/
def solveAt (A b : Tensor Float) (n columns : Nat) (index : List Nat) : Array (Vector Float n) :=
  let rowsAt := Tensor.project A.shape.dropLast.dropLast index
  let columnsAt := Tensor.project b.shape.dropLast.dropLast index
  let rows : Matrix Float n n := Matrix.ofFn fun i j => A.get 0 (rowsAt ++ [i.1, j.1])
  ((List.range columns).map fun c =>
    solve rows (Vector.ofFn fun i => b.get 0 (columnsAt ++ [i.1, c]))).toArray

/-- The solutions for columns, with the axes in front in the given shape. -/
def solveColumns (A b : Tensor Float) (n columns : Nat) (front : List Nat) : Tensor Float :=
  let entries := (List.range (Tensor.volume front)).flatMap fun k =>
    let solutions := solveAt A b n columns (Tensor.unravel front k)
    (List.range n).flatMap fun i => solutions.toList.map fun x => x[i]?.getD 0
  ⟨front ++ [n, columns], entries.toArray⟩

/-- A vector on the right is a matrix with one column, unless it could be meant
    as a list of rows. -/
def solveTensor (A b : Tensor Float) : Except Error (Tensor Float) :=
  match A.shape.reverse, b.shape.reverse with
  | n :: m :: front, [k] =>
    if m = n ∧ k = n then
      let x := solveColumns A ⟨[k, 1], b.entries⟩ n 1 front.reverse
      .ok ⟨x.shape.dropLast, x.entries⟩
    else .error .systemShape
  | n :: m :: front, columns :: k :: front' =>
    let rows := A.shape.length = b.shape.length + 1 ∧ n = columns ∧ n ≠ k
    if m = n ∧ k = n ∧ ¬rows then
      match Tensor.broadcastShape front.reverse front'.reverse with
      | some shape => .ok (solveColumns A b n columns shape)
      | none => .error .systemShape
    else .error .systemShape
  | _, _ => .error .systemShape

end Linear

end JetForm
