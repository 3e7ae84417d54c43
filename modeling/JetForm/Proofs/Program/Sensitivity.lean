import JetForm.Program.Sensitivity
import JetForm.Proofs.Integrate.Jacobian
import JetForm.Proofs.Program.Batch

/-! # Sensitivity from one call

    The estimate moves all entries of a state in one call: row `i` of the stack
    is the state with entry `i` moved by its own increment.  A function that is
    computed row by row gives its values at these states.  Their changes are
    divided by the increments, row by row again, and the transposition makes
    row `i` the column of entry `i`: this is `Difference.jacobian`, which calls
    the function once for each entry.

    So far nothing is used of the scalars, and the fields of programs are
    covered with their doubles.  Over an ordered field no increment is zero, and
    the estimate for an affine function is its matrix. -/

namespace JetForm

open Tensor

namespace Sensitivity

/-! ## Functions of stacks -/

/-- The function of tensors computes `f` at a single state, and at each row of a
    stack of states.  It may depend on a time and on other values, which are the
    same in every call. -/
structure RowWise {K : Type} {n : Nat} (F : Tensor K → Except Error (Tensor K))
    (f : Vector K n → Vector K n) : Prop where
  single : ∀ y, F (.ofVector y) = .ok (.ofVector (f y))
  stacked : ∀ {m : Nat} (rows : Matrix K m n), F (.ofRows rows) = .ok (.ofRows (rows.map f))

section

variable {K : Type} {m n : Nat} {F : Tensor K → Except Error (Tensor K)}
  {f : Vector K n → Vector K n}

/-- What is done to each entry of the result is done row by row. -/
theorem RowWise.map (rowWise : RowWise F f) (g : K → K) :
    RowWise (fun y => return (← F y).map g) (fun y => (f y).map g) where
  single y := by
    rw [rowWise.single, ← map_ofVector]
    rfl
  stacked rows := by
    rw [rowWise.stacked]
    show Except.ok ((ofRows (rows.map f)).map g) = _
    rw [map_ofRows, Vector.map_map]
    rfl

variable [Zero K]

/-- A function of states, applied along the last axis. -/
def onLastAxis (f : Vector K n → Vector K n) (x : Tensor K) : Except Error (Tensor K) :=
  .ok (.ofFn x.shape fun index =>
    (ofVector (f (x.row 0 n index.dropLast))).get 0 index.getLast?.toList)

/-- Each function of states is computed row by row by a function of tensors. -/
theorem rowWise_onLastAxis (f : Vector K n → Vector K n) : RowWise (onLastAxis f) f where
  single y := by
    refine congrArg Except.ok ((ofFn_eq_ofVector _).trans (congrArg ofVector ?_))
    refine Vectors.ext_get fun k => ?_
    rw [Vectors.get_ofFn]
    show (ofVector (f ((ofVector y).row 0 n []))).get 0 [k.val] = (f y).get k
    rw [row_ofVector]
    exact get_ofVector (f y) 0 k.2
  stacked rows := by
    refine congrArg Except.ok ((ofFn_eq_ofRows _).trans (congrArg ofRows ?_))
    refine Vectors.ext_get fun i => Vectors.ext_get fun j => ?_
    simp only [Matrix.ofFn, Vectors.get_ofFn, Vectors.get_map]
    show (ofVector (f ((ofRows rows).row 0 n [i.val]))).get 0 [j.val] = (f (rows.get i)).get j
    rw [row_ofRows rows 0 i.2]
    exact get_ofVector _ 0 j.2

/-- Combining two tensors whose common shape is that of a matrix. -/
theorem combine_eq_ofRows {x y : Tensor K} (common : broadcastShape x.shape y.shape = some [m, n])
    (op : K → K → K) : combine op x y = .ok (.ofRows (Matrix.ofFn fun (i : Fin m) (j : Fin n) =>
      op (x.spread 0 [i, j]) (y.spread 0 [i, j]))) := by
  rw [combine, zip, common, Option.map_some, ofFn_eq_ofRows]
  rfl

/-- A row fits each matrix with its length. -/
theorem row_fits : Fits [1, n] [m, n] := by
  simp [Fits, FitsReversed]

/-- A column fits each matrix with its height. -/
theorem column_fits : Fits [m, 1] [m, n] := by
  simp [Fits, FitsReversed]

theorem combine_row_matrix (op : K → K → K) (x : Vector K n) (rows : Matrix K m n) :
    combine op ((ofVector x).insertAxis 0) (.ofRows rows) =
      .ok (.ofRows (Matrix.ofFn fun i j => op (x.get j) ((rows.get i).get j))) := by
  rw [combine_eq_ofRows row_fits.broadcastShape_eq]
  simp only [spread_insertAxis_zero, spread_ofRows, Fin.is_lt]
  rfl

theorem combine_matrix_row (op : K → K → K) (rows : Matrix K m n) (x : Vector K n) :
    combine op (.ofRows rows) ((ofVector x).insertAxis 0) =
      .ok (.ofRows (Matrix.ofFn fun i j => op ((rows.get i).get j) (x.get j))) := by
  rw [combine_eq_ofRows ((broadcastShape_comm _ _).trans row_fits.broadcastShape_eq)]
  simp only [spread_insertAxis_zero, spread_ofRows, Fin.is_lt]
  rfl

theorem combine_matrix_column (op : K → K → K) (rows : Matrix K m n) (x : Vector K m) :
    combine op (.ofRows rows) ((ofVector x).insertAxis 1) =
      .ok (.ofRows (Matrix.ofFn fun i j => op ((rows.get i).get j) (x.get i))) := by
  rw [combine_eq_ofRows ((broadcastShape_comm _ _).trans column_fits.broadcastShape_eq)]
  simp only [spread_insertAxis_one, spread_ofRows, Fin.is_lt]
  rfl

end

/-! ## Columns -/

section

variable {K : Type} {n : Nat} [Zero K] [One K] [Neg K] [Add K] [Mul K] [LT K] [DecidableLT K]
  [LE K] [DecidableLE K]

/-- The stack of the states that have one entry moved. -/
def moves (eps : K) (y : Vector K n) : Matrix K n n :=
  Vector.ofFn fun i => Difference.moved y i (Difference.increment eps (y.get i))

/-- The increments on a diagonal, added to the state in each row. -/
theorem combine_moves (eps : K) (y : Vector K n) :
    combine (· + ·) ((ofVector y).insertAxis 0) (.ofRows (Matrix.ofFn fun i j =>
      if i = j then (y.map (Difference.increment eps)).get i else 0)) =
        .ok (.ofRows (moves eps y)) := by
  rw [combine_row_matrix]
  -- off the diagonal zero is added, as it is to the entries that are not moved
  refine congrArg (fun rows => Except.ok (ofRows rows)) ?_
  refine Vectors.ext_get fun i => Vectors.ext_get fun j => ?_
  simp only [moves, Difference.moved, Matrix.ofFn, Vectors.get_ofFn, Vectors.get_map,
    eq_comm (a := i)]
  rfl

variable [Sub K] [Div K] {F : Tensor K → Except Error (Tensor K)} {f : Vector K n → Vector K n}

/-- One call with all entries moved gives what a call for each entry gives. -/
theorem ofFunction_eq_jacobian (rowWise : RowWise F f) (eps : K) (y : Vector K n) :
    ofFunction eps F (.ofVector y) = .ok (.ofRows (Difference.jacobian eps f y)) := by
  simp only [ofFunction, map_ofVector, rowWise.single, diagonal?_ofVector, bind, Except.bind,
    combine_moves, rowWise.stacked, combine_matrix_row, combine_matrix_column, Functor.map,
    Except.map, transpose_ofRows]
  refine congrArg (fun rows => Except.ok (ofRows rows)) ?_
  -- entry `(i, j)` has been entry `(j, i)` of the stack, whose row `j` has entry `j` moved
  refine Vectors.ext_get fun i => Vectors.ext_get fun j => ?_
  simp only [moves, Difference.get_jacobian, Matrix.ofFn, Vectors.get_ofFn, Vectors.get_map]

end

/-! ## Ordered fields -/

section

variable {K : Type} [Field K] {n : Nat}

/-- Moving an entry is adding a multiple of a unit vector. -/
theorem moved_eq (y : Vector K n) (j : Fin n) (h : K) :
    Difference.moved y j h = y + h • (Matrix.identity : Matrix K n n).get j := by
  refine Vectors.ext_get fun i => ?_
  simp only [Difference.moved, Matrix.identity, Matrix.ofFn, Vectors.get_ofFn, Vectors.get_add,
    Vectors.get_smul, smul_eq_mul, mul_ite, mul_one, mul_zero, eq_comm (a := j)]
  rfl

variable [LinearOrder K] [IsStrictOrderedRing K] {F : Tensor K → Except Error (Tensor K)}
  {f : Vector K n → Vector K n} {eps : K}

/-- **Forward differences from one call.**  A function of states that is computed
    row by row has an estimate at each state.  Entry `(i, j)` is the change of
    component `i` divided by the increment of entry `j`, which is not zero.  The
    estimate for an affine function is its matrix. -/
theorem ofFunction_quotients (positive : 0 < eps) (rowWise : RowWise F f) (y : Vector K n) :
    ∃ J : Matrix K n n, ofFunction eps F (.ofVector y) = .ok (.ofRows J) ∧
      (∀ i j : Fin n, eps * max 1 |y.get j| ≠ 0 ∧
        (J.get i).get j =
          ((f (y + (eps * max 1 |y.get j|) • (Matrix.identity : Matrix K n n).get j)).get i -
            (f y).get i) / (eps * max 1 |y.get j|)) ∧
      ∀ (A : Matrix K n n) (b : Vector K n), (∀ y, f y = A.apply y + b) → J = A := by
  refine ⟨Difference.jacobian eps f y, ofFunction_eq_jacobian rowWise eps y, fun i j => ⟨?_, ?_⟩,
    fun A b affine => Difference.jacobian_affine positive affine y⟩
  · rw [← Difference.increment_eq]
    exact (Difference.increment_pos positive _).ne'
  · rw [Difference.get_jacobian, moved_eq, Difference.increment_eq]

/-- An affine function whose matrix is not symmetric, at a state with entries on
    both sides of one. -/
theorem ofFunction_quotients_affine :
    ofFunction (1 / 10) (onLastAxis fun y => Matrix.apply #v[#v[2, 3], #v[5, -7]] y + #v[1, 4])
      (.ofVector #v[-4, 1 / 2]) = .ok (.ofRows (#v[#v[2, 3], #v[5, -7]] : Matrix ℚ 2 2)) := by
  obtain ⟨J, run, -, exact⟩ := ofFunction_quotients (show (0 : ℚ) < 1 / 10 by norm_num)
    (rowWise_onLastAxis fun y => Matrix.apply #v[#v[2, 3], #v[5, -7]] y + #v[1, 4]) #v[-4, 1 / 2]
  rw [exact #v[#v[2, 3], #v[5, -7]] #v[1, 4] fun _ => rfl] at run
  exact run

end

end Sensitivity

/-! ## Fields of programs -/

namespace VectorField

open Sensitivity

variable (f : VectorField) (complete : f.program.Complete) (elementwise : f.program.Elementwise)
include complete elementwise

/-- A call at a stack gives the values at its rows. -/
theorem eval_of_call_rows {m : Nat} {t : Float} {rows : Matrix Float m f.size} {y : Tensor Float}
    (run : f.call (.scalar t) (.ofRows rows) = .ok y) :
    y = .ofRows (rows.map (f.eval .double t)) := by
  have ended := ended_call f complete elementwise (regular_scalar t) (regular_ofRows rows)
    (show (ofRows rows).shape = [m] ++ [f.size] from rfl) (nil_fits [m]).broadcastShape_eq
  -- the shape does not need a place, which a stack without rows would not have
  obtain ⟨regular, shape, -⟩ :=
    (ended none (by simp) t (Vector.replicate _ 0) (by simp) (by simp)).of_ok run
  rw [regular.eq_ofRows shape 0]
  refine congrArg ofRows (Vectors.ext_get fun i => ?_)
  have inside : Inside [m] [i.val] := by simp [Inside]
  obtain ⟨-, -, values⟩ := (ended (some [i.val]) (by simpa using inside) t (rows.get i)
    (fun _ _ => rfl) fun index hi => by
      cases hi
      rw [project_self inside]
      exact row_ofRows rows 0 i.2).of_ok run
  rw [Vectors.get_ofFn, Vectors.get_map]
  exact (Vector.toList_inj.mp (eval_of_point f (values [i.val] rfl))).symm

/-- Where a field can be evaluated at one state, it can be called at all. -/
theorem exists_call {t : Float} {x₀ : Vector Float f.size} {y₀ : Tensor Float}
    (works : f.call (.scalar t) (.ofVector x₀) = .ok y₀) {x : Tensor Float} (regular : x.Regular)
    {before : List Nat} (axes : x.shape = before ++ [f.size]) :
    ∃ y, f.call (.scalar t) x = .ok y := by
  rw [call_single f complete elementwise] at works
  have ended := ended_call f complete elementwise (regular_scalar t) regular axes
    (nil_fits before).broadcastShape_eq none (by simp) t x₀ (by simp) (by simp)
  cases outcome : f.call (.scalar t) x with
  | ok y => exact ⟨y, rfl⟩
  | error e =>
    obtain ⟨e', -, failed⟩ := ended.of_error outcome
    rw [failed] at works
    cases works

/-- A field that can be evaluated at one state is computed row by row. -/
theorem rowWise_call {t : Float} {x₀ : Vector Float f.size} {y₀ : Tensor Float}
    (works : f.call (.scalar t) (.ofVector x₀) = .ok y₀) :
    RowWise (f.call (.scalar t)) (f.eval .double t) where
  single y := by
    have axes : (ofVector y).shape = [] ++ [f.size] := rfl
    obtain ⟨z, run⟩ := exists_call f complete elementwise works (regular_ofVector y) axes
    rw [run, eval_of_call_single f complete elementwise run]
  stacked := by
    intro m rows
    have axes : (ofRows rows).shape = [m] ++ [f.size] := rfl
    obtain ⟨z, run⟩ := exists_call f complete elementwise works (regular_ofRows rows) axes
    rw [run, eval_of_call_rows f complete elementwise run]

/-- The estimate for a field that can be evaluated at the time is the one that
    backward Euler computes with. -/
theorem sensitivity_eq_jacobian {t : Float} {x₀ : Vector Float f.size} {y₀ : Tensor Float}
    (works : f.call (.scalar t) (.ofVector x₀) = .ok y₀) (rate : Option Float) (eps : Float)
    (y : Vector Float f.size) :
    f.sensitivity rate eps (.scalar t) (.ofVector y) = .ok (.ofRows (Difference.jacobian eps
      (fun y => (f.eval .double t y).map fun x => rate.elim x (· * x)) y)) :=
  ofFunction_eq_jacobian ((rowWise_call f complete elementwise works).map _) eps y

end VectorField

end JetForm
