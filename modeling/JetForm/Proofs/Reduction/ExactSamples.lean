import JetForm.Proofs.Chebyshev
import JetForm.Proofs.Numerics.Elimination
import JetForm.Proofs.Reduction.Sampling

/-! # Samples in exact arithmetic

    In a linear order nothing is undefined, so a sample that is not small is above
    the threshold.  A minimiser looks at values within its bracket alone, and
    returns one of them.  The points of a grid belong to the domain, and so do the
    brackets between them: outside of the domain a coefficient is never looked at. -/

namespace JetForm

/-! ## Pieces of a domain -/

namespace Domain

variable {K : Type} [LinearOrder K] [Finiteness K] {d : Domain K} {a b : K}

theorem mem_intervals_iff :
    (a, b) ∈ d.intervals ↔ ∃ k, d.points[k]? = some a ∧ d.points[k + 1]? = some b := by
  unfold intervals
  simp only [List.mem_iff_getElem?, List.getElem?_zip_eq_some, List.getElem?_tail]

theorem lt_of_mem_intervals (piece : (a, b) ∈ d.intervals) : a < b := by
  obtain ⟨k, ha, hb⟩ := mem_intervals_iff.mp piece
  obtain ⟨hk, rfl⟩ := List.getElem?_eq_some_iff.mp ha
  obtain ⟨hk', rfl⟩ := List.getElem?_eq_some_iff.mp hb
  exact List.pairwise_iff_getElem.mp d.points_increasing k (k + 1) hk hk' k.lt_succ_self

/-- The points of a domain are between its ends. -/
theorem within_of_mem {t : K} (ht : t ∈ d.points) : d.left ≤ t ∧ t ≤ d.right := by
  obtain ⟨k, hk, rfl⟩ := List.getElem_of_mem ht
  have ordered : ∀ i j, (hi : i < d.points.length) → (hj : j < d.points.length) → i ≤ j →
      d.points[i] ≤ d.points[j] := by
    intro i j hi hj le
    rcases le.eq_or_lt with rfl | less
    · exact le_rfl
    · exact (List.pairwise_iff_getElem.mp d.points_increasing i j hi hj less).le
  rw [left, right, List.head_eq_getElem, List.getLast_eq_getElem]
  exact ⟨ordered 0 k (by omega) hk (Nat.zero_le k), ordered k _ hk (by omega) (by omega)⟩

theorem within_of_mem_intervals (piece : (a, b) ∈ d.intervals) {t : K} (lower : a ≤ t)
    (upper : t ≤ b) : d.left ≤ t ∧ t ≤ d.right := by
  obtain ⟨k, ha, hb⟩ := mem_intervals_iff.mp piece
  have first := within_of_mem (List.mem_of_getElem? ha)
  have last := within_of_mem (List.mem_of_getElem? hb)
  exact ⟨first.1.trans lower, upper.trans last.2⟩

theorem intervals_ne_nil (d : Domain K) : d.intervals ≠ [] := by
  have two := d.two_le_length
  apply List.ne_nil_of_length_pos
  rw [intervals, List.length_zip, List.length_tail]
  omega

end Domain

namespace Singularity

theorem findSome?_congr {α β : Type} {f g : α → Option β} {l : List α}
    (same : ∀ x ∈ l, f x = g x) : l.findSome? f = l.findSome? g := by
  induction l with
  | nil => rfl
  | cons x l ih =>
    rw [List.findSome?_cons, List.findSome?_cons, same x List.mem_cons_self,
      ih fun y hy => same y (List.mem_cons_of_mem x hy)]

section

variable {K : Type} [LinearOrder K] [Finiteness K]

theorem ranked_id : Domain.Ranked (id : K → K) where
  lt _ _ _ _ := Iff.rfl
  le _ _ _ _ := Iff.rfl
  beq _ _ _ _ := beq_iff_eq

/-- Each piece of the domain is sampled at the points of a grid. -/
theorem mem_samples_iff {grid : K → K → List K} {f : K → K} {d : Domain K} {l : List (Sample K)} :
    l ∈ samples grid f d ↔
      ∃ a b, (a, b) ∈ d.intervals ∧ (grid a b).map (fun t => (t, f t)) = l := by
  simp [samples]

end

variable {K : Type} [Field K] [LinearOrder K]

/-- A minimiser returns a point of its bracket and the magnitude there, and it looks at no
    values outside of the bracket. -/
structure IsBounded (search : (K → K) → K → K → K × K) : Prop where
  inside : ∀ f lo hi, lo ≤ hi → lo ≤ (search f lo hi).1 ∧ (search f lo hi).1 ≤ hi
  value : ∀ f lo hi, lo ≤ hi → (search f lo hi).2 = |f (search f lo hi).1|
  congr : ∀ f g lo hi, lo ≤ hi → (∀ t, lo ≤ t → t ≤ hi → f t = g t) →
    search f lo hi = search g lo hi

/-- A minimiser that looks at the left end of a bracket only. -/
def leftEnd (f : K → K) (lo _ : K) : K × K :=
  (lo, |f lo|)

theorem isBounded_leftEnd : IsBounded (leftEnd : (K → K) → K → K → K × K) where
  inside _ _ _ ordered := ⟨le_rfl, ordered⟩
  value _ _ _ _ := rfl
  congr f g lo hi ordered same := by
    unfold leftEnd
    rw [same lo le_rfl ordered]

/-! ## Brackets -/

/-- A bracket is between points of the grid. -/
theorem within_of_mem_brackets {a b : K} {points : List K} (grid : Domain.IsGrid a b points)
    (ordered : a ≤ b) {f : K → K} {lo hi : K}
    (bracket : (lo, hi) ∈ brackets (points.map fun t => (t, f t))) :
    a ≤ lo ∧ lo ≤ hi ∧ hi ≤ b := by
  obtain ⟨k, hk, -, rfl, rfl⟩ := mem_brackets_iff.mp bracket
  simp only [List.length_map] at hk
  simp only [List.getElem_map, List.length_map]
  refine ⟨(grid.within ordered (List.getElem_mem _)).1, ?_,
    (grid.within ordered (List.getElem_mem _)).2⟩
  -- the bracket of the only point has no width
  rcases Nat.lt_or_ge (k - 1) (min (k + 1) (points.length - 1)) with less | same
  · exact (List.pairwise_iff_getElem.mp grid.increasing _ _ _ _ less).le
  · have eq : k - 1 = min (k + 1) (points.length - 1) := by omega
    simp only [← eq, le_refl]

/-- What is found on a piece does not depend on searches that are not made. -/
theorem onPiece_congr {search search' : K → K → K × K} {threshold : K}
    {samples : List (Sample K)}
    (same : ∀ lo hi, (lo, hi) ∈ brackets samples → search lo hi = search' lo hi) :
    onPiece search threshold samples = onPiece search' threshold samples := by
  have searches : ∀ b ∈ brackets samples,
      (if (search b.1 b.2).2 ≤ threshold then some (.vanishesNear (search b.1 b.2).1) else none) =
      (if (search' b.1 b.2).2 ≤ threshold then some (.vanishesNear (search' b.1 b.2).1)
        else none : Option (Singularity K)) := by
    intro b hb
    rw [same b.1 b.2 hb]
  unfold onPiece
  split
  next => rfl
  next =>
    split
    next => rfl
    next => exact findSome?_congr searches

section

variable [Finiteness K] {grid : K → K → List K} {search : (K → K) → K → K → K × K} {d : Domain K}
  {tolerance : K}

/-- Only the values on the domain matter. -/
theorem ofSamples_congr (grids : ∀ a b, a < b → Domain.IsGrid a b (grid a b))
    (bounded : IsBounded search) {f g : K → K}
    (same : ∀ t, d.left ≤ t → t ≤ d.right → f t = g t) :
    ofSamples grid search tolerance f d = ofSamples grid search tolerance g d := by
  have taken : samples grid f d = samples grid g d := by
    unfold samples
    refine List.map_congr_left fun ⟨a, b⟩ piece => List.map_congr_left fun t ht => ?_
    have below := Domain.lt_of_mem_intervals piece
    obtain ⟨lower, upper⟩ := (grids a b below).within below.le ht
    obtain ⟨left, right⟩ := Domain.within_of_mem_intervals piece lower upper
    rw [same t left right]
  -- the searches stay between the points of a grid
  have found : ∀ threshold, (samples grid f d).findSome? (onPiece (search f) threshold) =
      (samples grid f d).findSome? (onPiece (search g) threshold) := by
    intro threshold
    refine findSome?_congr fun l hl => onPiece_congr fun lo hi bracket => ?_
    obtain ⟨a, b, piece, rfl⟩ := mem_samples_iff.mp hl
    have below := Domain.lt_of_mem_intervals piece
    obtain ⟨lower, ordered, upper⟩ := within_of_mem_brackets (grids a b below) below.le bracket
    refine bounded.congr f g lo hi ordered fun t ht ht' => ?_
    obtain ⟨left, right⟩ :=
      Domain.within_of_mem_intervals piece (lower.trans ht) (ht'.trans upper)
    exact same t left right
  unfold ofSamples ofPieces
  dsimp only
  rw [found, taken]

omit [Field K] in
theorem mem_values_iff {f : K → K} {x : K} :
    x ∈ (samples grid f d).flatten.map Prod.snd ↔
      ∃ a b, (a, b) ∈ d.intervals ∧ ∃ t ∈ grid a b, f t = x := by
  simp only [List.mem_map, List.mem_flatten, mem_samples_iff]
  constructor
  · rintro ⟨s, ⟨l, ⟨a, b, piece, rfl⟩, hs⟩, rfl⟩
    obtain ⟨t, ht, rfl⟩ := List.mem_map.mp hs
    exact ⟨a, b, piece, t, ht, rfl⟩
  · rintro ⟨a, b, piece, t, ht, rfl⟩
    exact ⟨_, ⟨_, ⟨a, b, piece, rfl⟩, List.mem_map_of_mem ht⟩, rfl⟩

end

/-! ## Large values -/

section

variable [IsStrictOrderedRing K] {search : (K → K) → K → K → K × K} {f : K → K} {threshold : K}

/-- If no value on a piece is small, nothing but the signs of the samples matters. -/
theorem onPiece_eq_none_of_above (bounded : IsBounded search) {a b : K} {points : List K}
    (grid : Domain.IsGrid a b points) (ordered : a ≤ b)
    (above : ∀ t, a ≤ t → t ≤ b → threshold < |f t|) :
    onPiece (search f) threshold (points.map fun t => (t, f t)) = none ↔
      ∀ s ∈ points, ∀ t ∈ points, signOf (f s) = signOf (f t) := by
  have signs : (∀ s ∈ points.map fun t => (t, f t), ∀ s' ∈ points.map fun t => (t, f t),
      signOf s.2 = signOf s'.2) ↔ ∀ s ∈ points, ∀ t ∈ points, signOf (f s) = signOf (f t) := by
    simp only [List.forall_mem_map]
  rw [onPiece_eq_none_iff, isChain_signs_iff, signs]
  refine ⟨fun accepted => accepted.2.1, fun oneSign => ⟨?_, oneSign, ?_⟩⟩
  · rw [List.forall_mem_map]
    intro t ht
    obtain ⟨lower, upper⟩ := grid.within ordered ht
    rw [Linear.magnitude_eq_abs]
    exact (above t lower upper).not_ge
  · -- what a search finds is the magnitude at some point of the piece
    intro lo hi bracket
    obtain ⟨lower, between, upper⟩ := within_of_mem_brackets grid ordered bracket
    obtain ⟨left, right⟩ := bounded.inside f lo hi between
    rw [bounded.value f lo hi between]
    exact (above _ (lower.trans left) (right.trans upper)).not_ge

variable [Finiteness K]

/-- The threshold is a share of one or of the largest value, whichever is larger. -/
theorem threshold_exact (total : ∀ x : K, Finiteness.isFinite x = true) (tolerance : K)
    (values : List K) : ∃ scale, Singularity.threshold tolerance values = tolerance * scale ∧
      (scale = 1 ∨ ∃ x ∈ values, scale = |x|) ∧ 1 ≤ scale ∧ ∀ x ∈ values, |x| ≤ scale := by
  obtain ⟨scale, same, ⟨attained, one_le, largest⟩, -⟩ :=
    threshold_eq ranked_id tolerance (total 1) fun x _ => total (magnitude x)
  simp only [Linear.magnitude_eq_abs] at attained largest
  exact ⟨scale, same, attained, one_le, largest⟩

end

end Singularity

end JetForm
