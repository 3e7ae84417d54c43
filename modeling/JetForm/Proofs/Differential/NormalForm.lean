import JetForm.Proofs.Differential.Rational
import JetForm.Proofs.Reduction.Normalize

/-! # Normal forms keep the value

    In a differential field a tree and its normal form have the same value.
    Pushing a derivative of order `k` gives the tree that denotes `D^[k]` of the
    value, by the linearity of `D` and because numbers are constants. -/

namespace JetForm

universe u

variable {K : Type u} [Field K] (I : Interpretation K) (unknown : Nat → K) (state : Int → K)

namespace Tree

/-- What is pushed denotes the derivative. -/
theorem Pushes.denote {k : Nat} {t t' : Tree} (pushes : Pushes k t t') (positive : 0 < k)
    (numeric : t.numeric = true) : t'.denote (I.meaning unknown state) =
      I.D^[k] (t.denote (I.meaning unknown state)) := by
  induction pushes with
  | leaf var => rfl
  | independent =>
    show I.number _ = I.D^[k] I.time
    rw [I.iterate_time positive]
    split
    · exact I.number_one
    · exact I.number_zero
  -- numbers are constants of the derivation, and positive derivatives of them vanish
  | constant v =>
    cases v with
    | external f => cases numeric
    | number n => exact I.number_zero.trans (I.iterate_constant (I.D_number n) positive).symm
  | derivative c order =>
    show I.D^[order + k] _ = I.D^[k] (I.D^[order] _)
    rw [Nat.add_comm, Function.iterate_add_apply]
  | @sign op c c' sign _ ih =>
    obtain rfl | rfl := UnaryOp.eq_of_isSign sign
    · show -c'.denote _ = I.D^[k] (-c.denote _)
      rw [ih numeric]
      exact (iterate_map_neg I.D k _).symm
    · exact ih numeric
  -- the iterated derivation is additive
  | @sum op l l' r r' sum _ _ ihl ihr =>
    obtain ⟨left, right⟩ := Bool.and_eq_true_iff.mp numeric
    rcases sum with rfl | rfl
    · show l'.denote _ + r'.denote _ = I.D^[k] (l.denote _ + r.denote _)
      rw [ihl left, ihr right]
      exact (iterate_map_add I.D k _ _).symm
    · show l'.denote _ - r'.denote _ = I.D^[k] (l.denote _ - r.denote _)
      rw [ihl left, ihr right]
      exact (iterate_map_sub I.D k _ _).symm
  | @afterNumber n t t' _ ih =>
    show t'.denote _ = I.D^[k] (I.number n + t.denote _)
    rw [ih numeric, iterate_map_add, I.iterate_constant (I.D_number n) positive, zero_add]
  | @fromNumber n t t' _ ih =>
    show -t'.denote _ = I.D^[k] (I.number n - t.denote _)
    rw [ih numeric, iterate_map_sub, I.iterate_constant (I.D_number n) positive, zero_sub]
  -- a constant factor is left in front of the derivative
  | @timesNumber n t t' _ ih =>
    show I.number n * t'.denote _ = I.D^[k] (I.number n * t.denote _)
    rw [ih numeric, I.iterate_const_mul (I.D_number n)]
  | @beforeNumber op n t t' sum _ ih =>
    rcases sum with rfl | rfl
    · show t'.denote _ = I.D^[k] (t.denote _ + I.number n)
      rw [ih numeric, iterate_map_add, I.iterate_constant (I.D_number n) positive, add_zero]
    · show t'.denote _ = I.D^[k] (t.denote _ - I.number n)
      rw [ih numeric, iterate_map_sub, I.iterate_constant (I.D_number n) positive, sub_zero]
  | @scale op n t t' product _ ih =>
    rcases product with rfl | rfl
    · show t'.denote _ * I.number n = I.D^[k] (t.denote _ * I.number n)
      rw [ih numeric, I.iterate_mul_const (I.D_number n)]
    · show t'.denote _ / I.number n = I.D^[k] (t.denote _ / I.number n)
      rw [ih numeric, I.iterate_div_const (I.D_number n)]

/-- A normal form has the value of the tree. -/
theorem denote_normalForm {t t' : Tree} (normal : t.normalForm = some t')
    (numeric : t.numeric = true) (ordered : t.ordered = true) :
    t'.denote (I.meaning unknown state) = t.denote (I.meaning unknown state) := by
  show t'.denote
    { I.meaning unknown state with leaf := unknown, derivative := fun k x => I.D^[k] x } = _
  refine rebuild_denote (Q := fun t => t.numeric = true ∧ t.ordered = true) ?_ ?_ ?_
    ⟨numeric, ordered⟩ normal
  -- both properties are passed on to the children
  · intro t known c hc
    cases t with
    | leaf | independent | constant | slot => cases hc
    | unary | valueTree | treeValue =>
      obtain rfl := List.mem_singleton.mp hc
      exact known
    | derivative c k =>
      obtain rfl := List.mem_singleton.mp hc
      exact ⟨known.1, (Bool.and_eq_true_iff.mp known.2).2⟩
    | treeTree op l r =>
      obtain ⟨numericl, numericr⟩ := Bool.and_eq_true_iff.mp known.1
      obtain ⟨orderedl, orderedr⟩ := Bool.and_eq_true_iff.mp known.2
      obtain rfl | rfl : c = l ∨ c = r := by simpa [children] using hc
      · exact ⟨numericl, orderedl⟩
      · exact ⟨numericr, orderedr⟩
  · intro var t' _ eq
    cases eq
    rfl
  -- only a derivative is changed, which is pushed into the normal form below it
  · intro c k c' t' known child same pushed
    obtain ⟨c', rfl, pushed⟩ := Option.bind_eq_some_iff.mp pushed
    have positive : 0 < k := of_decide_eq_true (Bool.and_eq_true_iff.mp known.2).1
    calc t'.denote (I.meaning unknown state)
        = I.D^[k] (c'.denote (I.meaning unknown state)) :=
          (pushes_of_push pushed).denote I unknown state positive
            (numeric_normalForm child known.1)
      _ = I.D^[k] (c.denote (I.meaning unknown state)) := congrArg _ (same c' rfl)

end Tree

namespace Arena

/-- Normalising keeps the value of every tree, whatever stands for the unknowns
    and the state entries. -/
theorem denote_normalize {a a' : Arena} {roots hs : List Nat} (wf : a.WellFormed)
    (inside : ∀ r ∈ roots, r < a.count)
    (numeric : ∀ r ∈ roots, (a.tree r).numeric = true)
    (run : Arena.normalize roots a = .ok hs a') :
    List.Forall₂ (fun r h => a'.denote (I.meaning unknown state) h =
      a.denote (I.meaning unknown state) r) roots hs := by
  obtain ⟨-, -, normal⟩ := (normalize_ends wf inside).of_ok run
  refine List.forall₂_iff_zip.mpr ⟨normal.length_eq, ?_⟩
  intro r h hrh
  have hr := (List.of_mem_zip hrh).1
  have form := (List.forall₂_zip normal hrh).normalForm
  have keyed := I.value_key
  calc a'.denote (I.meaning unknown state) h
      = (a'.expression h).denote (I.meaning unknown state) := (denote_expression keyed h).symm
    _ = (a.expression r).denote (I.meaning unknown state) :=
        Tree.denote_normalForm I unknown state form
          (by rw [expression, Tree.numeric_keyed]; exact numeric r hr)
          (ordered_expression wf (inside r hr))
    _ = a.denote (I.meaning unknown state) r := denote_expression keyed r

/-- The second derivative of `u + t`. -/
def curvature : Building Nat := do
  let u ← leaf 0
  let t ← independent
  derivative (← binary .plus (.treeTree u t)) 2

theorem curvature_makes : Ends curvature (empty 1)
    (fun h a => (empty 1).Makes (.derivative (.treeTree .plus (.leaf 0) .independent) 2) h a)
    fun _ _ => False := by
  refine Ends.bind ((leaf_makes (wellFormed_empty 1 0) (by decide)).weaken ?_)
  intro u a₁ unknown
  refine Ends.bind ((independent_makes unknown.wellFormed).weaken ?_)
  intro t a₂ time
  have hu := time.grown.lt_count unknown.inside
  refine Ends.bind ((treeTree_makes time.wellFormed .plus hu time.inside).weaken ?_)
  intro s a₃ sum
  refine (derivative_makes sum.wellFormed (k := 2) (by decide) sum.inside).weaken ?_
  intro h a made
  rw [sum.expression, time.expression,
    time.grown.expression unknown.wellFormed unknown.inside, unknown.expression] at made
  exact made.after ((unknown.grown.trans time.grown).trans sum.grown)

/-- It can be normalised. -/
theorem exists_normalize_curvature {h : Nat} {a : Arena}
    (made : (empty 1).Makes (.derivative (.treeTree .plus (.leaf 0) .independent) 2) h a) :
    ∃ hs a', Arena.normalize [h] a = .ok hs a' := by
  have inside : ∀ r ∈ [h], r < a.count := by simpa using made.inside
  have total : Ends (Arena.normalize [h]) a (fun _ _ => True) fun _ _ => False := by
    apply (normalize_ends made.wellFormed inside).mono
    · exact fun _ _ _ => trivial
    · rintro _ _ ⟨r, hr, stuck⟩
      obtain rfl := List.mem_singleton.mp hr
      rw [made.expression] at stuck
      exact Tree.not_stuck rfl rfl _ stuck
  obtain ⟨hs, a', run, -⟩ := total.exists_ok
  exact ⟨hs, a', run⟩

theorem denote_normalize_curvature : ∃ h a hs a', curvature (empty 1) = .ok h a ∧
    Arena.normalize [h] a = .ok hs a' ∧
    List.Forall₂ (fun r h =>
      a'.denote (Interpretation.rational.meaning (fun _ => 0) fun _ => 0) h =
      a.denote (Interpretation.rational.meaning (fun _ => 0) fun _ => 0) r) [h] hs := by
  obtain ⟨h, a, built, made⟩ := curvature_makes.exists_ok
  have inside : ∀ r ∈ [h], r < a.count := by simpa using made.inside
  have numeric : ∀ r ∈ [h], (a.tree r).numeric = true := by
    rintro r hr
    obtain rfl := List.mem_singleton.mp hr
    rw [← Tree.numeric_keyed, ← expression, made.expression]
    rfl
  obtain ⟨hs, a', run⟩ := exists_normalize_curvature made
  exact ⟨h, a, hs, a', built, run, denote_normalize Interpretation.rational (fun _ => 0)
    (fun _ => 0) made.wellFormed inside numeric run⟩

end Arena

end JetForm
