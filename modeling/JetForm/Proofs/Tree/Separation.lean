import JetForm.Proofs.Tree.Halves
import Mathlib.Algebra.Field.Basic
import Mathlib.Tactic.Ring

/-! # What a decomposition says

    The rules of decomposition are sound for arithmetic: whatever unknowns, derivatives,
    external functions and all other operations stand for, the tree has the value of
    `coeff * D + rest` (`Separates.value`).  The coefficient depends on no unknown
    (`Separates.closed`), and in the rest the unknown is differentiated less often
    (`Separates.low`). -/

namespace JetForm

/-- The meaning with the arithmetic of a field in the place of its own. -/
def Meaning.field {K : Type*} [Field K] (m : Meaning K) : Meaning K where
  leaf := m.leaf
  time := m.time
  value := m.value
  state := m.state
  unary
    | .uplus, x => x
    | .uminus, x => -x
    | op, x => m.unary op x
  binary
    | .plus, x, y => x + y
    | .minus, x, y => x - y
    | .times, x, y => x * y
    | .rdivide, x, y => x / y
    | .power, x, y => m.binary .power x y
  derivative := m.derivative

namespace Tree

variable {var order : Nat} {t : Tree} {x y : Halves}

/-! ## Arithmetic values -/

/-- A value for every tree that respects arithmetic.  The values of unknowns, of the
    independent variable, of constants, of derivatives, of powers and of all other operations
    are free. -/
structure Arithmetic {K : Type*} [Field K] (value : Tree → K) : Prop where
  uplus : ∀ t, value (.unary .uplus t) = value t
  uminus : ∀ t, value (.unary .uminus t) = -value t
  plus : ∀ l r, value (.treeTree .plus l r) = value l + value r
  minus : ∀ l r, value (.treeTree .minus l r) = value l - value r
  times : ∀ l r, value (.treeTree .times l r) = value l * value r
  rdivide : ∀ l r, value (.treeTree .rdivide l r) = value l / value r
  valueTree : ∀ op v t, op ≠ .power →
    value (.valueTree op v t) = value (.treeTree op (.constant v) t)
  treeValue : ∀ op t v, op ≠ .power →
    value (.treeValue op t v) = value (.treeTree op t (.constant v))

/-- So every choice of the other values gives an arithmetic one. -/
theorem arithmetic_denote {K : Type*} [Field K] (m : Meaning K) :
    Arithmetic (Tree.denote m.field) where
  uplus _ := rfl
  uminus _ := rfl
  plus _ _ := rfl
  minus _ _ := rfl
  times _ _ := rfl
  rdivide _ _ := rfl
  valueTree _ _ _ _ := rfl
  treeValue _ _ _ _ := rfl

/-- The value of a part, where `none` stands for zero. -/
def partValue {K : Type*} [Zero K] (value : Tree → K) (p : Option Tree) : K :=
  p.elim 0 value

@[simp] theorem partValue_none {K : Type*} [Zero K] (value : Tree → K) :
    partValue value none = 0 := rfl

@[simp] theorem partValue_some {K : Type*} [Zero K] (value : Tree → K) (t : Tree) :
    partValue value (some t) = value t := rfl

theorem Halves.map_eq_some {f : Option Tree → Option (Option Tree)} :
    x.map f = some y ↔ f x.coeff = some y.coeff ∧ f x.rest = some y.rest := by
  constructor
  · intro eq
    obtain ⟨coeff, hc, eq⟩ := Option.bind_eq_some_iff.mp eq
    obtain ⟨rest, hr, eq⟩ := Option.bind_eq_some_iff.mp eq
    cases eq
    exact ⟨hc, hr⟩
  · intro known
    obtain ⟨hc, hr⟩ := known
    rw [Halves.map, hc, hr]
    rfl

/-- What is recorded is the result. -/
theorem Scaling.eq_hole {op : BinaryOp} {unit : Tree} {f : Tree → Option Tree} {hole : Tree → Tree}
    (scaling : Scaling op unit f hole) {t t' : Tree} (eq : f t = some t') : t' = hole t := by
  cases scaling with
  | valueTimes | treeTimes | byTree => exact (Option.some.inj eq).symm
  | byValue =>
    unfold withValue at eq
    split at eq
    next => exact (Option.some.inj eq).symm
    next => cases eq

namespace Arithmetic

variable {K : Type*} [Field K] {value : Tree → K} (arithmetic : Arithmetic value)
include arithmetic

theorem negative (p : Option Tree) :
    partValue value (Tree.negative p) = -partValue value p := by
  cases p with
  | none => simp [Tree.negative]
  | some t => exact arithmetic.uminus t

theorem sumOf (p q : Option Tree) :
    partValue value (Tree.sumOf p q) = partValue value p + partValue value q := by
  cases p with
  | none => simp [Tree.sumOf]
  | some s =>
    cases q with
    | none => simp [Tree.sumOf]
    | some t => exact arithmetic.plus s t

theorem differenceOf (p q : Option Tree) :
    partValue value (Tree.differenceOf p q) = partValue value p - partValue value q := by
  cases q with
  | none => cases p <;> simp [Tree.differenceOf]
  | some t =>
    cases p with
    | none =>
      rw [partValue_none, zero_sub]
      exact arithmetic.uminus t
    | some s => exact arithmetic.minus s t

/-- Products and quotients multiply by a number, which is that of the other operand in a
    product. -/
theorem factor {op : BinaryOp} {unit : Tree} {f : Tree → Option Tree} {hole : Tree → Tree}
    (scaling : Scaling op unit f hole) :
    ∃ k : K, (∀ t, value (hole t) = k * value t) ∧ (op = .times → value unit = k) := by
  cases scaling with
  | valueTimes v =>
    refine ⟨value (.constant v), ?_, fun _ => rfl⟩
    intro t
    rw [arithmetic.valueTree _ v t (by simp), arithmetic.times]
  | byValue v product =>
    rcases product with rfl | rfl
    · refine ⟨value (.constant v), ?_, fun _ => rfl⟩
      intro t
      rw [arithmetic.treeValue _ t v (by simp), arithmetic.times, mul_comm]
    · refine ⟨(value (.constant v))⁻¹, ?_, by simp⟩
      intro t
      rw [arithmetic.treeValue _ t v (by simp), arithmetic.rdivide, div_eq_mul_inv, mul_comm]
  | treeTimes => exact ⟨value unit, fun t => arithmetic.times _ t, fun _ => rfl⟩
  | byTree product =>
    rcases product with rfl | rfl
    · refine ⟨value unit, ?_, fun _ => rfl⟩
      intro t
      rw [arithmetic.times, mul_comm]
    · refine ⟨(value unit)⁻¹, ?_, by simp⟩
      intro t
      rw [arithmetic.rdivide, div_eq_mul_inv, mul_comm]

end Arithmetic

/-- A part is multiplied by the same number, also where a factor of one is left out. -/
theorem Scaling.partValue {K : Type*} [Field K] {value : Tree → K} (unit_one : value one = 1)
    {op : BinaryOp} {unit : Tree} {f : Tree → Option Tree} {hole : Tree → Tree}
    (scaling : Scaling op unit f hole) {k : K} (hole_eq : ∀ t, value (hole t) = k * value t)
    (unit_eq : op = .times → value unit = k) {p q : Option Tree}
    (eq : scaled op unit f p = some q) :
    Tree.partValue value q = k * Tree.partValue value p := by
  cases p with
  | none =>
    cases eq
    rw [partValue_none, mul_zero]
  | some t =>
    obtain ⟨t', made, rfl⟩ := Option.map_eq_some_iff.mp eq
    by_cases isOne : t = one ∧ op = .times
    · rw [if_pos isOne] at made
      cases made
      rw [partValue_some, partValue_some, unit_eq isOne.2, isOne.1, unit_one, mul_one]
    · rw [if_neg isOne] at made
      rw [partValue_some, partValue_some, scaling.eq_hole made, hole_eq]

/-! ## Soundness -/

/-- **A decomposition is sound.**  The tree has the value of `coeff * D + rest`. -/
theorem Separates.value {K : Type*} [Field K] {value : Tree → K} (arithmetic : Arithmetic value)
    (unit_one : value one = 1) (separates : Separates var order t x) :
    value t = partValue value x.coeff * value (.derivative (.leaf var) order) +
      partValue value x.rest := by
  induction separates with
  | plain => rw [partValue_none, partValue_some, zero_mul, zero_add]
  | jet => rw [partValue_some, partValue_none, unit_one, one_mul, add_zero]
  | uplus _ ih => rw [arithmetic.uplus, ih]
  | uminus _ ih =>
    rw [arithmetic.uminus, arithmetic.negative, arithmetic.negative, ih]
    ring
  | sum additive _ _ ihl ihr =>
    rcases additive with rfl | rfl
    · rw [arithmetic.plus, ihl, ihr, Halves.combine, if_pos rfl]
      dsimp only
      rw [arithmetic.sumOf, arithmetic.sumOf]
      ring
    · rw [arithmetic.minus, ihl, ihr, Halves.combine, if_neg (by simp)]
      dsimp only
      rw [arithmetic.differenceOf, arithmetic.differenceOf]
      ring
  | @afterValue op v t x additive _ ih =>
    have notPower : op ≠ .power := by rcases additive with rfl | rfl <;> simp
    -- the value goes to the rest, and stands alone if there is none
    have rest : value (x.rest.elim (.constant v) (.valueTree op v)) =
        if op = .plus then value (.constant v) + partValue value x.rest
        else value (.constant v) - partValue value x.rest := by
      cases x.rest with
      | none => simp
      | some r =>
        rcases additive with rfl | rfl
        · exact (arithmetic.valueTree _ v r (by simp)).trans (arithmetic.plus _ r)
        · exact (arithmetic.valueTree _ v r (by simp)).trans (arithmetic.minus _ r)
    dsimp only [Halves.afterValue]
    rw [partValue_some, rest, arithmetic.valueTree _ v t notPower]
    rcases additive with rfl | rfl
    · rw [if_pos rfl, if_pos rfl, arithmetic.plus, ih]
      ring
    · rw [if_neg (by simp), if_neg (by simp), arithmetic.negative, arithmetic.minus, ih]
      ring
  | @beforeValue op v t x additive _ ih =>
    have notPower : op ≠ .power := by rcases additive with rfl | rfl <;> simp
    have rest : value (x.rest.elim
          (if op = .plus then .constant v else .unary .uminus (.constant v)) (.treeValue op · v)) =
        if op = .plus then partValue value x.rest + value (.constant v)
        else partValue value x.rest - value (.constant v) := by
      cases x.rest with
      | none =>
        rcases additive with rfl | rfl
        · simp
        · simpa using arithmetic.uminus (.constant v)
      | some r =>
        rcases additive with rfl | rfl
        · exact (arithmetic.treeValue _ r v (by simp)).trans (arithmetic.plus r _)
        · exact (arithmetic.treeValue _ r v (by simp)).trans (arithmetic.minus r _)
    dsimp only [Halves.beforeValue]
    rw [partValue_some, rest, arithmetic.treeValue _ t v notPower]
    rcases additive with rfl | rfl
    · rw [if_pos rfl, arithmetic.plus, ih]
      ring
    · rw [if_neg (by simp), arithmetic.minus, ih]
      ring
  | scale scaling _ eq ih =>
    obtain ⟨k, hole_eq, unit_eq⟩ := arithmetic.factor scaling
    obtain ⟨coeff, rest⟩ := Halves.map_eq_some.mp eq
    rw [hole_eq, ih, scaling.partValue unit_one hole_eq unit_eq coeff,
      scaling.partValue unit_one hole_eq unit_eq rest]
    ring

/-! ## The coefficient -/

theorem hereditary_closed : Hereditary fun t => t.isClosed = true where
  child t closed c hc := by
    cases t <;> simp_all [children, isClosed]
    next => rcases hc with rfl | rfl <;> tauto
  value _ _ _ _ := rfl
  one := rfl
  unary _ _ := id
  treeTree _ _ _ left right := Bool.and_eq_true_iff.mpr ⟨left, right⟩
  valueTree _ _ _ _ := id
  treeValue _ _ _ _ _ := id

/-- The other operand of a product or quotient does not depend on unknowns. -/
theorem Scaling.closed {op : BinaryOp} {unit : Tree} {f : Tree → Option Tree} {hole : Tree → Tree}
    (scaling : Scaling op unit f hole) : unit.isClosed = true := by
  cases scaling with
  | valueTimes | byValue => rfl
  | treeTimes closed | byTree _ closed => exact closed

/-- Nor does the product or quotient with a tree that does not. -/
theorem Scaling.isClosed_hole {op : BinaryOp} {unit : Tree} {f : Tree → Option Tree}
    {hole : Tree → Tree} (scaling : Scaling op unit f hole) {t : Tree} (known : t.isClosed = true) :
    (hole t).isClosed = true := by
  cases scaling with
  | valueTimes | byValue => exact known
  | treeTimes closed => exact Bool.and_eq_true_iff.mpr ⟨closed, known⟩
  | byTree _ closed => exact Bool.and_eq_true_iff.mpr ⟨known, closed⟩

/-- The coefficient is a function of the independent variable. -/
theorem Separates.closed (separates : Separates var order t x) :
    ∀ c, x.coeff = some c → c.isClosed = true := by
  induction separates with
  | plain =>
    intro c eq
    cases eq
  | jet =>
    intro c eq
    cases eq
    rfl
  | uplus _ ih => exact ih
  | uminus _ ih => exact hereditary_closed.negative ih
  -- sums and differences of closed coefficients are closed
  | sum additive _ _ ihl ihr =>
    unfold Halves.combine
    split
    · exact hereditary_closed.sumOf ihl ihr
    · exact hereditary_closed.differenceOf ihl ihr
  | afterValue _ _ ih =>
    unfold Halves.afterValue
    dsimp only
    split
    · exact ih
    · exact hereditary_closed.negative ih
  | beforeValue _ _ ih => exact ih
  | scale scaling _ eq ih =>
    obtain ⟨coeff, -⟩ := Halves.map_eq_some.mp eq
    refine Hereditary.scaled scaling.closed ?_ ih coeff
    intro t t' known made
    rw [scaling.eq_hole made]
    exact scaling.isClosed_hole known

/-! ## The rest -/

theorem diffOrder_of_isClosed (var : Nat) {t : Tree} (closed : t.isClosed = true) :
    t.diffOrder var = 0 := by
  induction t with
  | leaf | slot => cases closed
  | independent | constant => rfl
  | unary op c ih | valueTree op v c ih | treeValue op c v ih => exact ih closed
  | treeTree op l r ihl ihr =>
    obtain ⟨left, right⟩ := Bool.and_eq_true_iff.mp closed
    rw [diffOrder, ihl left, ihr right, Nat.max_self]
  | derivative c k ih =>
    have plain : c.dependsOn var = false := isClosed_iff.mp closed var
    rw [diffOrder, plain, ih closed]
    rfl

theorem Scaling.diffOrder_hole {op : BinaryOp} {unit : Tree} {f : Tree → Option Tree}
    {hole : Tree → Tree} (scaling : Scaling op unit f hole) (var : Nat) (t : Tree) :
    (hole t).diffOrder var = t.diffOrder var := by
  cases scaling with
  | valueTimes | byValue => rfl
  | treeTimes closed | byTree _ closed => simp [diffOrder, diffOrder_of_isClosed var closed]

theorem hereditary_low (positive : 0 < order) : Hereditary fun t => t.diffOrder var < order where
  child t low c hc := by
    cases t with
    | leaf | independent | constant | slot => cases hc
    | unary | valueTree | treeValue =>
      obtain rfl := List.mem_singleton.mp hc
      exact low
    | treeTree op l r =>
      have bound := max_lt_iff.mp low
      obtain rfl | rfl : c = l ∨ c = r := by simpa [children] using hc
      · exact bound.1
      · exact bound.2
    | derivative d k =>
      obtain rfl := List.mem_singleton.mp hc
      rw [diffOrder] at low
      split at low <;> omega
  value _ _ _ _ := positive
  one := positive
  unary _ _ := id
  treeTree _ _ _ := max_lt
  valueTree _ _ _ _ := id
  treeValue _ _ _ _ _ := id

/-- In the rest the unknown is differentiated less often. -/
theorem Separates.low (positive : 0 < order) (separates : Separates var order t x) :
    ∀ r, x.rest = some r → r.diffOrder var < order := by
  have hereditary : Hereditary fun t => t.diffOrder var < order := hereditary_low positive
  induction separates with
  | plain below =>
    intro r eq
    cases eq
    exact below
  | jet =>
    intro r eq
    cases eq
  | uplus _ ih => exact ih
  | uminus _ ih => exact hereditary.negative ih
  | sum additive _ _ ihl ihr =>
    unfold Halves.combine
    split
    · exact hereditary.sumOf ihl ihr
    · exact hereditary.differenceOf ihl ihr
  -- a value has no derivatives, so the rest may be replaced by a sum with it
  | @afterValue op v t x _ _ ih =>
    intro r eq
    cases eq
    cases found : x.rest with
    | none => exact positive
    | some r => exact ih r found
  | @beforeValue op v t x _ _ ih =>
    intro r eq
    cases eq
    cases found : x.rest with
    | none =>
      dsimp only [Option.elim]
      split <;> exact positive
    | some r => exact ih r found
  | scale scaling _ eq ih =>
    obtain ⟨-, rest⟩ := Halves.map_eq_some.mp eq
    have unit : Tree.diffOrder var _ < order :=
      (diffOrder_of_isClosed var scaling.closed).trans_lt positive
    refine Hereditary.scaled unit ?_ ih rest
    intro t t' known made
    rwa [scaling.eq_hole made, scaling.diffOrder_hole]

/-! ## The other unknowns -/

/-- How often an unknown is differentiated in a part, where none is zero. -/
def partOrder (j : Nat) (p : Option Tree) : Nat :=
  p.elim 0 (diffOrder j)

theorem partOrder_negative (j : Nat) (p : Option Tree) : partOrder j (negative p) = partOrder j p := by
  cases p <;> rfl

theorem partOrder_sumOf (j : Nat) (p q : Option Tree) :
    partOrder j (sumOf p q) = max (partOrder j p) (partOrder j q) := by
  cases p <;> cases q <;> simp [sumOf, partOrder, diffOrder]

theorem partOrder_differenceOf (j : Nat) (p q : Option Tree) :
    partOrder j (differenceOf p q) = max (partOrder j p) (partOrder j q) := by
  cases p <;> cases q <;> simp [differenceOf, partOrder, diffOrder]

theorem Halves.partOrder_combine {op : BinaryOp} (j : Nat) (x y : Halves) :
    partOrder j (x.combine op y).rest = max (partOrder j x.rest) (partOrder j y.rest) := by
  unfold Halves.combine
  split
  · exact partOrder_sumOf j x.rest y.rest
  · exact partOrder_differenceOf j x.rest y.rest

/-- A derivative of another unknown can be nowhere but in the rest. -/
theorem Separates.diffOrder_le (separates : Separates var order t x) {j : Nat} (other : j ≠ var) :
    t.diffOrder j ≤ partOrder j x.rest := by
  induction separates with
  | plain => exact Nat.le_refl _
  | jet =>
    have absent : (leaf var).dependsOn j = false := by simpa [dependsOn] using other.symm
    simp [diffOrder, absent]
  | uplus _ ih => exact ih
  | uminus _ ih => exact (partOrder_negative j _).symm ▸ ih
  | sum _ _ _ ihl ihr => exact (Halves.partOrder_combine j _ _).symm ▸ max_le_max ihl ihr
  -- a value has no derivatives of the unknown
  | @afterValue op v t x _ _ ih | @beforeValue op v t x _ _ ih =>
    obtain ⟨coeff, rest⟩ := x
    cases rest with
    | none => exact Nat.le_trans ih (Nat.zero_le _)
    | some rest => exact ih
  | @scale op unit f hole t x y scaling _ eq ih =>
    obtain ⟨-, made⟩ := Halves.map_eq_some.mp eq
    rw [scaling.diffOrder_hole]
    apply Nat.le_trans ih
    cases found : x.rest with
    | none => exact Nat.zero_le _
    | some rest =>
      rw [found] at made
      obtain ⟨rest', made, same⟩ := Option.map_eq_some_iff.mp made
      rw [← same]
      by_cases isOne : rest = one ∧ op = .times
      · -- a factor in place of one, which has no derivatives
        rw [isOne.1]
        exact Nat.zero_le _
      · rw [if_neg isOne] at made
        rw [scaling.eq_hole made]
        exact Nat.le_of_eq (scaling.diffOrder_hole j rest).symm

end Tree

end JetForm
