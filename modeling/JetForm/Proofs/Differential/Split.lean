import JetForm.Proofs.Differential.Substitution
import JetForm.Proofs.Reduction.Solvable

/-! # The equations of the first-order form

    On the jet of some unknowns the equation for a last state entry says the
    same as the equation that it was made from: `(y - R) / C` is the highest
    derivative `D` exactly if `C * D + R` is `y`.  The equations for the other
    entries are the next entries themselves.

    What the equations are is known from `Arena.split_ends`, so all of this is about
    the values of trees. -/

namespace JetForm

universe u

variable {K : Type u} [Field K]

/-- A right-hand side that stands for the element `y`: zero, a number or an
    external function. -/
def RightHandSide.Is (I : Interpretation K) (y : K) : RightHandSide → Prop
  | .zero => y = 0
  | .value v => y = I.value v
  | _ => False

variable {I : Interpretation K} {unknown : Nat → K} {state : Int → K} {a b : Arena}

/-! ## The values of trees -/

namespace Tree

/-- The value of a tree without unknowns does not depend on them. -/
theorem Closed.denote (I : Interpretation K) {t : Tree} (closed : t.Closed)
    (unknown unknown' : Nat → K) (state state' : Int → K) :
    t.denote (I.meaning unknown state) = t.denote (I.meaning unknown' state') := by
  induction t with
  | leaf var => simpa [dependsOn] using closed var
  | slot index var order => simpa [dependsOn] using closed var
  | independent | constant => rfl
  | unary op c ih | valueTree op v c ih | treeValue op c v ih | derivative c k ih =>
    simp only [Tree.denote, ih closed]
    rfl
  | treeTree op l r ihl ihr =>
    have left : l.Closed := fun var => (Bool.or_eq_false_iff.mp (closed var)).1
    have right : r.Closed := fun var => (Bool.or_eq_false_iff.mp (closed var)).2
    simp only [Tree.denote, ihl left, ihr right]
    rfl

/-- Trees are evaluated by the arithmetic of the field. -/
theorem arithmetic_meaning : Arithmetic (Tree.denote (I.meaning unknown state)) where
  uplus _ := rfl
  uminus _ := rfl
  plus _ _ := rfl
  minus _ _ := rfl
  times _ _ := rfl
  rdivide _ _ := rfl
  valueTree _ _ _ _ := rfl
  treeValue _ _ _ _ := rfl

/-- A missing part of a difference is zero. -/
theorem Arithmetic.remainder {value : Tree → K} (arithmetic : Arithmetic value)
    (zero : value (.constant (.number (.ofFloat 0))) = 0) (target rest : Option Tree) :
    value (remainder target rest) = partValue value target - partValue value rest := by
  cases target with
  | none =>
    rw [partValue_none, zero_sub]
    cases rest with
    | none => exact zero.trans neg_zero.symm
    | some rest => exact arithmetic.uminus rest
  | some target =>
    cases rest with
    | none => exact (sub_zero _).symm
    | some rest => exact arithmetic.minus target rest

/-- A coefficient is left out only if it is one. -/
theorem Arithmetic.top {value : Tree → K} (arithmetic : Arithmetic value)
    (zero : value (.constant (.number (.ofFloat 0))) = 0) {unit : Bool} {coeff : Tree}
    (one : unit = true → value coeff = 1) (target rest : Option Tree) :
    value (top unit coeff target rest) =
      (partValue value target - partValue value rest) / value coeff := by
  rw [Tree.top]
  split
  next left => rw [one left, div_one, arithmetic.remainder zero]
  next => rw [arithmetic.rdivide, arithmetic.remainder zero]

/-- On a jet, the rest of an equation keeps its value. -/
theorem partValue_substituteRest {r : Registry} (jet : I.IsJet r unknown state)
    (nonneg : ∀ n ∈ r.orders, 0 ≤ n) {s t : Option Tree}
    (substituted : substituteRest r s = some t) :
    partValue (Tree.denote (I.onState state)) t =
      partValue (Tree.denote (I.meaning unknown state)) s := by
  cases s with
  | none =>
    cases substituted
    rfl
  | some s =>
    obtain ⟨t, found, rfl⟩ := Option.map_eq_some_iff.mp substituted
    exact denote_substitute jet nonneg _ found

end Tree

/-- A coefficient that is left out is one. -/
theorem LeadingCoefficient.Made.denote_eq_one (faithful : I.Faithful) {base : Arena}
    {var order : Nat} {t : Tree} {c : LeadingCoefficient} (made : Made base var order t c)
    (real : t.real = true) (one : c.constant.any (· == 1) = true) :
    t.denote (I.meaning unknown state) = 1 := by
  obtain ⟨b, h, -, -, -, rfl, created⟩ := made
  cases found : c.constant with
  | none =>
    rw [found] at one
    cases one
  | some x =>
    have known := (create_iff.mp created).2.1
    rw [found] at one known
    obtain ⟨v, n, stored, value, double⟩ := exists_number_of_constantValue known
    have expression : b.expression h = .constant (Value.number n).key := by
      rw [Arena.expression_eq stored, Arena.expressionOf, value]
    rw [expression] at real ⊢
    have real : n.isReal = true := (Value.isReal_key (.number n)).symm.trans real
    exact (I.value_key (.number n)).trans (faithful.one n x real double one)

namespace Split

variable {r : Registry} {var n : Nat} {t : Tree} {y : K} {q : List Nat × LeadingCoefficient}

variable (I unknown state) in
/-- The first-order equations of an unknown of order `n`, which come from the
    equation `t = y`. -/
structure Reduces (r : Registry) (var n : Nat) (t : Tree) (y : K)
    (q : List Nat × LeadingCoefficient) (b : Arena) : Prop where
  length : q.1.length = n
  inside : ∀ h ∈ q.1, h < b.count
  lower : ∀ j, j + 1 < n → ∃ h, q.1[j]? = some h ∧ IsEntry r var (j + 1) b h
  coefficient : q.2.handle < b.count ∧ (b.expression q.2.handle).Closed
  last : ∃ h, q.1[n - 1]? = some h ∧ (I.IsJet r unknown state →
    (b.expression q.2.handle).denote (I.onState state) ≠ 0 →
    (t.denote (I.meaning unknown state) = y ↔
      I.D^[n] (unknown var) = (b.expression h).denote (I.onState state)))

/-- An equation that is solved for the highest derivative says what it said before. -/
theorem Solved.reduces (faithful : I.Faithful) (nonneg : ∀ n ∈ r.orders, 0 ≤ n)
    (positive : 0 < n) (real : t.real = true) {base : Arena} {d : Domain Float}
    {options : ReductionOptions} {x : Tree × Option Tree} {target rest : Option Tree}
    (solvable : Solvable base r d options var n t x rest)
    (solved : Solved base r var n x.1 target rest q b)
    (side : Tree.partValue (Tree.denote (I.onState state)) target = y) :
    Reduces I unknown state r var n t y q b := by
  have separates := Tree.separates_of_lead solvable.lead
  have closed : x.1.Closed := Tree.isClosed_iff.mp (separates.closed _ rfl)
  obtain ⟨inside, same⟩ := solved.coefficient
  obtain ⟨h, listed, -, top⟩ := solved.last
  refine ⟨solved.length positive, solved.inside, fun j => solved.lower,
    ⟨inside, same ▸ closed⟩, h, listed, ?_⟩
  intro jet nonzero
  rw [same] at nonzero
  -- the coefficient has one value, on the unknowns and on the state
  have coeff : x.1.denote (I.meaning unknown state) = x.1.denote (I.onState state) :=
    closed.denote I _ _ _ _
  have whole : t.denote (I.meaning unknown state) = x.1.denote (I.meaning unknown state) *
      I.D^[n] (unknown var) + Tree.partValue (Tree.denote (I.meaning unknown state)) x.2 :=
    separates.value Tree.arithmetic_meaning I.number_one
  have last : (b.expression h).denote (I.onState state) =
      (y - Tree.partValue (Tree.denote (I.onState state)) rest) / x.1.denote (I.onState state) := by
    rw [top, ← side]
    apply Tree.Arithmetic.top Tree.arithmetic_meaning I.number_zero
    exact solved.made.denote_eq_one faithful (Tree.hereditary_real.lead real solvable.lead).1
  rw [whole, last, coeff, Tree.partValue_substituteRest jet nonneg solvable.substituted,
    eq_div_iff nonzero, eq_sub_iff_add_eq, mul_comm]

theorem supplies_of_is (a : Arena) {s : RightHandSide} (side : s.Is I y) :
    Supplies a s (fun t => Tree.partValue (Tree.denote (I.onState state)) t = y)
      fun _ => True := by
  intro b wf grown
  cases s with
  | zero =>
    apply (provides_zero a b wf grown).mono ?_ fun _ _ _ => trivial
    rintro p c ⟨t, rfl, gains⟩
    exact ⟨none, side.symm, gains⟩
  | value v =>
    apply (provides_value a v b wf grown).mono ?_ fun _ _ _ => trivial
    rintro p c ⟨t, rfl, gains⟩
    exact ⟨some (.constant v.key), (I.value_key v).trans side.symm, gains⟩
  | tree | unsupported => exact side.elim

/-! ## The system -/

variable (I unknown state) in
/-- The equations of one unknown come from the equation that it is assigned
    to. -/
def Block (a : Arena) (roots : List Nat) (ys : Nat → K) (r : Registry) (assignment : List Nat)
    (b : Arena) (entry : Int × Nat) (q : List Nat × LeadingCoefficient) : Prop :=
  ∃ e root, assignment[entry.2]? = some e ∧ roots[e]? = some root ∧
    Reduces I unknown state r entry.2 entry.1.toNat (a.expression root) (ys e) q b

variable (I unknown state) in
/-- A first-order system comes from the equations `roots[e] = ys e`. -/
structure Stems (a : Arena) (roots : List Nat) (ys : Nat → K) (s : SplitSystem) (b : Arena) :
    Prop where
  wellFormed : b.WellFormed
  grown : a.Extends b
  assigned : a.Assigned roots s.registry s.assignment
  slots : s.slots = s.registry.slots
  blocks : ∃ parts, s.equations = (parts.map Prod.fst).flatten ∧
    s.coefficients = parts.map Prod.snd ∧ List.Forall₂
      (Block I unknown state a roots ys s.registry s.assignment b) s.registry.orders.zipIdx parts

/-- Splitting some equations. -/
theorem split_stems (faithful : I.Faithful) (wf : a.WellFormed) {roots : List Nat}
    (real : ∀ root ∈ roots, (a.expression root).real = true) {rhs : List RightHandSide}
    {ys : Nat → K} (sides : ∀ (e : Nat) side, rhs[e]? = some side → side.Is I (ys e)) {r : Registry}
    {domain : Domain Float} {options : ReductionOptions} :
    Ends (Arena.split roots r domain (some rhs) options) a
      (fun s b => s.registry = r ∧ Stems I unknown state a roots ys s b) fun _ _ => True := by
  have supplied : ∀ (e : Nat) side, rhs[e]? = some side → Supplies a side
      (fun t => Tree.partValue (Tree.denote (I.onState state)) t = ys e) fun _ => True :=
    fun e side given => supplies_of_is a (sides e side given)
  apply (Arena.split_ends (Arena.Extends.refl a) wf supplied r domain options).mono ?_
    fun _ _ _ => trivial
  rintro s b ⟨-, passed⟩
  obtain ⟨rfl, slots, found, wf', grown, parts, equations, coefficients, derived⟩ := passed
  have assigned : a.Assigned roots s.registry s.assignment :=
    Arena.assignEquations_ended.of_ok found
  refine ⟨rfl, wf', grown, assigned, slots, parts, equations, coefficients, ?_⟩
  have known : ∀ entry ∈ s.registry.orders.zipIdx, 0 < entry.1 := fun entry listed =>
    assigned.positive _ (List.mem_of_getElem? (List.mk_mem_zipIdx_iff_getElem?.mp listed))
  apply ((List.forall₂_and_left _ _).mpr ⟨known, derived⟩).imp
  rintro ⟨n, var⟩ q ⟨positive, e, t, target, x, rest, given, tree, side, solvable, solved⟩
  rw [List.getElem?_map] at tree
  obtain ⟨root, equation, rfl⟩ := Option.map_eq_some_iff.mp tree
  refine ⟨e, root, given, equation, ?_⟩
  exact solved.reduces faithful (fun n hn => Int.le_of_lt (assigned.positive n hn))
    (by omega) (real root (List.mem_of_getElem? equation)) solvable side

end Split

end JetForm
