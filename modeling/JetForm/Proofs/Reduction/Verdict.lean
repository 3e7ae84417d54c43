import JetForm.Proofs.Differential.Rational
import JetForm.Proofs.Program.Times
import JetForm.Proofs.Reduction.Acceptance

/-! # The verdict on a coefficient

    Whether a coefficient vanishes is decided from its values.  `verdict` says how,
    for any evaluation of the coefficient: a plain number is looked at directly,
    everything else is sampled.  With doubles this is what the check computes, since
    samples that are taken in one call are the values at each point.  With exact
    scalars it is what the check would find without rounding. -/

namespace JetForm

namespace LeadingCoefficient

section

variable {K : Type} [Zero K] [One K] [Neg K] [Mul K] [LE K] [DecidableLE K] [LT K]
  [DecidableLT K] [BEq K] [Finiteness K]

/-- How a coefficient vanishes on a domain, if it does.  A plain number is read from a double,
    which may be infinite or undefined. -/
def verdict (E : Evaluation K) (read : Float → K) (grid : K → K → List K)
    (search : (K → K) → K → K → K × K) (c : LeadingCoefficient) (d : Domain K) (tolerance : K) :
    Option (Singularity K) :=
  match c.constant with
  | some x =>
    if x.isFinite then Singularity.ofNumber c.order (read x)
    else some (.constant c.order (read x))
  | none => Singularity.ofSamples grid search tolerance (c.function.eval E) d

end

variable {a : Arena} {h var order : Nat} {c : LeadingCoefficient}

/-! ## With doubles -/

/-- A tree that has been flattened is there. -/
theorem inside_of_create (created : create a var order h = .ok c) : h < a.count := by
  obtain ⟨flattened, -⟩ := create_iff.mp created
  unfold Program.ofTrees at flattened
  by_contra outside
  have missing : a.requireNodes [h] = .error .nodeIndex := by
    rw [Arena.requireNodes, if_neg]
    simpa [Arena.count] using outside
  rw [missing] at flattened
  cases flattened

section

variable (created : create a var order h = .ok c) (elementwise : c.function.program.Elementwise)
  (works : c.function.fault? = none)
include created elementwise works

/-- The samples are the values at the points of the grid. -/
theorem pieces_eq (d : Domain Float) (count : Nat) :
    c.pieces d count =
      .ok (Singularity.samples (Domain.chebyshev count) (c.function.eval .double) d) := by
  have inside := inside_of_create created
  obtain ⟨flattened, -, name, -⟩ := create_iff.mp created
  have complete := Program.ofTrees_complete (by simpa using inside) flattened
  have unshadowed := isShadowing_of_name name
  rw [pieces, mapM_eq_ok_iff, Singularity.samples, List.forall₂_map_right_iff, List.forall₂_same]
  rintro ⟨lo, hi⟩ -
  obtain ⟨z, known, values⟩ :=
    c.function.entries_times complete elementwise unshadowed works (Domain.chebyshev count lo hi)
  dsimp only
  rw [known]
  show Except.ok _ = _
  rw [values, List.zip_map_right, List.zip_eq_zipWith, List.zipWith_self, List.map_map]
  rfl

theorem singularity?_eq_verdict (d : Domain Float) (tolerance : Float) (count : Nat)
    (search : (Float → Float) → Float → Float → Float × Float) :
    c.singularity? d tolerance count search =
      .ok (c.verdict .double id (Domain.chebyshev count) search d tolerance) := by
  unfold singularity? verdict
  cases c.constant with
  | some x =>
    show Except.ok (Singularity.ofNumber c.order x) =
      .ok (if x.isFinite then Singularity.ofNumber c.order x else some (.constant c.order x))
    split
    next => rfl
    next infinite =>
      -- a plain number that is not finite is refused in any case
      show Except.ok (if x == 0 || !x.isFinite then _ else _) = _
      rw [Bool.eq_false_of_not_eq_true infinite, Bool.not_false, Bool.or_true, if_pos rfl]
  | none =>
    dsimp only
    rw [pieces_eq created elementwise works, works]
    rfl

/-- A coefficient is accepted if the verdict finds nothing wrong with it. -/
theorem check_eq_ok_iff {d : Domain Float} {tolerance : Float} {count : Nat} (some_ : count ≠ 0)
    {search : (Float → Float) → Float → Float → Float × Float} :
    c.check d tolerance count search = .ok () ↔
      c.verdict .double id (Domain.chebyshev count) search d tolerance = none := by
  unfold check
  rw [singularity?_eq_verdict created elementwise works]
  cases c.verdict .double id (Domain.chebyshev count) search d tolerance with
  | none => simp [Except.mapError, some_, bind, Except.bind, pure, Except.pure]
  | some s => simp [Except.mapError, some_, bind, Except.bind]

end

/-! ## Exact values -/

section

variable {K : Type} [Zero K] {value : Value → K → K} {unary : UnaryOp → K → K}
  {binary : BinaryOp → K → K → K} (created : create a var order h = .ok c)
include created

/-- The value of a coefficient whose tree is a constant. -/
theorem eval_of_node {v : Nat} (node : a.node? h = some (.constant v)) (t : K) :
    c.function.eval (.exact value unary binary) t = value (a.value v) t := by
  obtain ⟨flattened, -⟩ := create_iff.mp created
  rw [Program.ofTrees_constant node] at flattened
  unfold ScalarFunction.eval
  rw [← Except.ok.inj flattened]
  rfl

/-- A plain number comes from a number of the tree. -/
theorem exists_number {x : Float} (plain : c.constant = some x) :
    ∃ v n, a.node? h = some (.constant v) ∧ a.value v = .number n ∧ n.toDouble = .ok x := by
  obtain ⟨-, known, -⟩ := create_iff.mp created
  exact exists_number_of_constantValue (plain ▸ known)

/-- An external function is no plain number. -/
theorem constant_of_external {v : Nat} {f : External} (node : a.node? h = some (.constant v))
    (external : a.value v = .external f) : c.constant = none := by
  obtain ⟨-, known, -⟩ := create_iff.mp created
  unfold constantValue at known
  rw [node] at known
  dsimp only at known
  rw [external] at known
  exact (Except.ok.inj known).symm

end

end LeadingCoefficient

/-! ## A single constant -/

/-- The value of a constant in exact arithmetic, where doubles are rational numbers. -/
def Value.rational (v : Value) (t : ℚ) : ℚ :=
  match v with
  | .number n => n.rational
  | .external f =>
    match f.law with
    | .constant x => rationalOfFloat x
    | .step at_ lo hi => if t < rationalOfFloat at_ then rationalOfFloat lo else rationalOfFloat hi
    | _ => 0

/-- Evaluation of constants with rational numbers. -/
def rationalConstants : Evaluation ℚ :=
  .exact Value.rational (fun _ x => x) fun _ x _ => x

/-- The arena whose only node is a constant. -/
def Arena.ofConstant (v : Value) : Arena where
  size := 1
  serial := 0
  nodes := #[.constant 0]
  infos := #[.ofMask 1 0]
  index := ∅
  values := #[v]
  valueIndex := ∅
  child_lt h node known c hc := by
    obtain ⟨hk, rfl⟩ := Array.getElem?_eq_some_iff.mp known
    obtain rfl : h = 0 := Nat.lt_one_iff.mp hk
    cases hc

/-- The coefficient of a first derivative that is a constant. -/
def LeadingCoefficient.ofConstant (v : Value) (plain : Option Float) : LeadingCoefficient where
  var := 0
  order := 1
  handle := 0
  function := ⟨⟨#[], [.constant 0 v], [], [(0, v)], false⟩, "coeff_0", rfl⟩
  constant := plain

namespace LeadingCoefficient

theorem create_external (f : External) :
    create (.ofConstant (.external f)) 0 1 0 = .ok (ofConstant (.external f) none) := by
  have node : (Arena.ofConstant (.external f)).node? 0 = some (.constant 0) := rfl
  exact create_iff.mpr ⟨Program.ofTrees_constant node, rfl, rfl, rfl, rfl, rfl⟩

theorem create_number {n : Number} {x : Float} (double : n.toDouble = .ok x) :
    create (.ofConstant (.number n)) 0 1 0 = .ok (ofConstant (.number n) (some x)) := by
  have node : (Arena.ofConstant (.number n)).node? 0 = some (.constant 0) := rfl
  have known : constantValue (.ofConstant (.number n)) 0 = .ok (some x) := by
    show some <$> n.toDouble.mapError Error.fault = _
    rw [double]
    rfl
  exact create_iff.mpr ⟨Program.ofTrees_constant node, known, rfl, rfl, rfl, rfl⟩

end LeadingCoefficient

end JetForm
