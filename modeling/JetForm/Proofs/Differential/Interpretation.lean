import JetForm.Number.Arithmetic
import JetForm.Tree.Unfold
import Mathlib.RingTheory.Derivation.Basic

/-! # Expressions in a differential field

    An `Interpretation` reads expressions in a field with a derivation: numbers
    are constants, the four operations and the signs are those of the field, the
    derivative of the independent variable is one, and everything else is
    arbitrary.  Unknowns and state entries are no part of it; `meaning` takes
    them as arguments. -/

namespace JetForm

universe u

/-- A field with a derivation in which expressions have values. -/
structure Interpretation (K : Type u) [Field K] where
  D : Derivation ℤ K K
  time : K
  number : Number → K
  external : External → K
  unary : UnaryOp → K → K
  power : K → K → K
  D_time : D time = 1
  D_number : ∀ n, D (number n) = 0
  number_key : ∀ n : Number, number n.key = number n
  number_zero : number (.ofFloat 0) = 0
  number_one : number (.ofFloat 1) = 1

namespace Interpretation

variable {K : Type u} [Field K] (I : Interpretation K)

/-- The element that an external value stands for. -/
def value : Value → K
  | .number n => I.number n
  | .external f => I.external f

/-- Signs are those of the field. -/
def applyUnary (op : UnaryOp) (x : K) : K :=
  match op with
  | .uplus => x
  | .uminus => -x
  | op => I.unary op x

/-- The four operations are those of the field. -/
def applyBinary (op : BinaryOp) (x y : K) : K :=
  match op with
  | .plus => x + y
  | .minus => x - y
  | .times => x * y
  | .rdivide => x / y
  | .power => I.power x y

/-- The meaning of trees for given unknowns and state entries. -/
def meaning (unknown : Nat → K) (state : Int → K) : Meaning K :=
  ⟨unknown, I.time, I.value, state, I.applyUnary, I.applyBinary, fun k x => I.D^[k] x⟩

/-- The meaning of trees without unknowns, on a state. -/
def onState (state : Int → K) : Meaning K :=
  I.meaning (fun _ => 0) state

/-- Do zero and one stand for themselves, whatever kind of number they are? -/
structure Faithful (I : Interpretation K) : Prop where
  zero : ∀ n : Number, n.isZero = true → I.number n = 0
  one : ∀ (n : Number) (x : Float), n.isReal = true → n.toDouble = .ok x → (x == 1) = true →
    I.number n = 1

theorem value_key (v : Value) : I.value v.key = I.value v := by
  cases v with
  | number n => exact I.number_key n
  | external f => rfl

/-! ## Iterated derivatives -/

theorem iterate_constant {c : K} (constant : I.D c = 0) {k : Nat} (positive : 0 < k) :
    I.D^[k] c = 0 := by
  obtain ⟨j, rfl⟩ := Nat.exists_eq_add_of_lt positive
  rw [Nat.zero_add, Function.iterate_succ_apply, constant, iterate_map_zero]

theorem iterate_time {k : Nat} (positive : 0 < k) :
    I.D^[k] I.time = if k = 1 then 1 else 0 := by
  obtain ⟨j, rfl⟩ := Nat.exists_eq_add_of_lt positive
  rw [Nat.zero_add, Function.iterate_succ_apply, I.D_time]
  by_cases first : j = 0
  · subst first
    simp
  · rw [I.iterate_constant I.D.map_one_eq_zero (Nat.pos_of_ne_zero first), if_neg (by omega)]

theorem iterate_const_mul {c : K} (constant : I.D c = 0) (k : Nat) (x : K) :
    I.D^[k] (c * x) = c * I.D^[k] x := by
  induction k with
  | zero => rfl
  | succ k ih =>
    rw [Function.iterate_succ_apply', ih, I.D.leibniz, constant, smul_zero, add_zero, smul_eq_mul,
      Function.iterate_succ_apply']

theorem iterate_mul_const {c : K} (constant : I.D c = 0) (k : Nat) (x : K) :
    I.D^[k] (x * c) = I.D^[k] x * c := by
  rw [mul_comm, I.iterate_const_mul constant, mul_comm]

theorem iterate_div_const {c : K} (constant : I.D c = 0) (k : Nat) (x : K) :
    I.D^[k] (x / c) = I.D^[k] x / c := by
  have inverse : I.D c⁻¹ = 0 := by
    rw [I.D.leibniz_inv, constant, smul_zero]
  rw [div_eq_mul_inv, I.iterate_mul_const inverse, div_eq_mul_inv]

end Interpretation

end JetForm
