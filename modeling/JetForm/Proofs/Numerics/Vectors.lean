import Mathlib.Algebra.BigOperators.Fin
import Mathlib.Algebra.BigOperators.Pi
import Mathlib.Algebra.BigOperators.Ring.Finset
import Mathlib.Algebra.Field.Basic
import Mathlib.Algebra.Group.InjSurj
import Mathlib.Algebra.Module.Defs
import Mathlib.Algebra.Module.LinearMap.End
import Mathlib.Algebra.Module.Pi
import JetForm.Numerics.Basic

/-! # Vectors and matrices

    Over a field the operations on vectors, entry by entry, make them a module,
    so that general facts about modules apply to states.  A matrix is a linear
    map between them, and different matrices are different maps. -/

namespace JetForm

namespace Vectors

/-! ## Entries -/

section

variable {K S : Type} {n : Nat}

theorem get_injective : Function.Injective (Vector.get : Vector K n → Fin n → K) :=
  fun _ _ h => Vector.ext fun i hi => congrFun h ⟨i, hi⟩

theorem ext_get {x y : Vector K n} (h : ∀ i, x.get i = y.get i) : x = y :=
  get_injective (funext h)

@[simp] theorem get_ofFn (f : Fin n → K) (i : Fin n) : (Vector.ofFn f).get i = f i :=
  Vector.getElem_ofFn i.2

@[simp] theorem get_map {L : Type} (f : K → L) (x : Vector K n) (i : Fin n) :
    (x.map f).get i = f (x.get i) :=
  Vector.getElem_map f i.2

@[simp] theorem get_zero [Zero K] (i : Fin n) : (0 : Vector K n).get i = 0 :=
  Vector.getElem_zero i.1 i.2

theorem toList_zero [Zero K] : (0 : Vector K n).toList = List.replicate n 0 :=
  rfl

@[simp] theorem get_add [Add K] (x y : Vector K n) (i : Fin n) :
    (x + y).get i = x.get i + y.get i :=
  Vector.getElem_add x y i.1 i.2

@[simp] theorem get_neg [Neg K] (x : Vector K n) (i : Fin n) : (-x).get i = -x.get i :=
  Vector.getElem_neg x i.1 i.2

theorem toList_neg [Neg K] (x : Vector K n) : (-x).toList = x.toList.map Neg.neg :=
  Vector.toList_map

@[simp] theorem get_sub [Sub K] (x y : Vector K n) (i : Fin n) :
    (x - y).get i = x.get i - y.get i :=
  Vector.getElem_sub x y i.1 i.2

@[simp] theorem get_smul [SMul S K] (c : S) (x : Vector K n) (i : Fin n) :
    (c • x).get i = c • x.get i :=
  Vector.getElem_smul c x i.1 i.2

end

/-! ## Linear structure -/

variable {K : Type} [Field K] {n : Nat}

instance addCommGroup : AddCommGroup (Vector K n) :=
  get_injective.addCommGroup Vector.get (funext get_zero) (fun x y => funext (get_add x y))
    (fun x => funext (get_neg x)) (fun x y => funext (get_sub x y))
    (fun x c => funext (get_smul c x)) (fun x c => funext (get_smul c x))

/-- The entries depend additively on the vector. -/
def entries : Vector K n →+ (Fin n → K) where
  toFun := Vector.get
  map_zero' := funext get_zero
  map_add' x y := funext (get_add x y)

instance module : Module K (Vector K n) :=
  get_injective.module K entries fun c x => funext (get_smul c x)

theorem get_sum {ι : Type} (s : Finset ι) (f : ι → Vector K n) (i : Fin n) :
    (∑ k ∈ s, f k).get i = ∑ k ∈ s, (f k).get i :=
  (congrFun (map_sum entries f s) i).trans (Finset.sum_apply i s _)

end Vectors

namespace Matrix

open Vectors

variable {K : Type} [Field K] {m n : Nat}

/-! ## Products -/

/-- The product of a matrix and a vector. -/
def apply (A : Matrix K m n) (x : Vector K n) : Vector K m :=
  Vector.ofFn fun i => ∑ j : Fin n, (A.get i).get j * x.get j

/-- Different vectors have different products. -/
def Nonsingular (A : Matrix K n n) : Prop :=
  Function.Injective A.apply

@[simp] theorem get_apply (A : Matrix K m n) (x : Vector K n) (i : Fin m) :
    (A.apply x).get i = ∑ j : Fin n, (A.get i).get j * x.get j :=
  get_ofFn _ i

theorem apply_add (A : Matrix K m n) (x y : Vector K n) :
    A.apply (x + y) = A.apply x + A.apply y :=
  ext_get fun i => by simp [mul_add, Finset.sum_add_distrib]

theorem apply_smul (A : Matrix K m n) (c : K) (x : Vector K n) : A.apply (c • x) = c • A.apply x :=
  ext_get fun i => by simp [Finset.mul_sum, mul_left_comm]

/-- A square matrix as a linear map. -/
def linearMap (A : Matrix K n n) : Module.End K (Vector K n) where
  toFun := A.apply
  map_add' := A.apply_add
  map_smul' := A.apply_smul

theorem neg_apply (A : Matrix K m n) (x : Vector K n) : (-A).apply x = -A.apply x :=
  ext_get fun i => by simp

theorem identity_apply (x : Vector K n) : (identity : Matrix K n n).apply x = x :=
  ext_get fun i => by simp [identity, ofFn]

/-- Moving one entry of a vector adds a multiple of a column to the product. -/
theorem get_apply_moved (A : Matrix K m n) (x : Vector K n) (j : Fin n) (h : K) (i : Fin m) :
    (A.apply (Difference.moved x j h)).get i = (A.apply x).get i + (A.get i).get j * h := by
  have entry : ∀ k : Fin n,
      (Difference.moved x j h).get k = x.get k + if k = j then h else 0 := fun k => get_ofFn _ k
  simp only [get_apply, entry, mul_add, Finset.sum_add_distrib, mul_ite, mul_zero,
    Finset.sum_ite_eq', Finset.mem_univ, if_true]

/-- A matrix is determined by its products. -/
theorem apply_injective {A B : Matrix K m n} (same : ∀ x, A.apply x = B.apply x) : A = B := by
  refine ext_get fun i => ext_get fun j => ?_
  have column := get_apply_moved A 0 j 1 i
  rw [same, same, get_apply_moved, mul_one, mul_one] at column
  exact (add_left_cancel column).symm

end Matrix

end JetForm
