import JetForm.Proofs.Integrate.Solution
import JetForm.Proofs.Reduction.ExactSamples
import JetForm.Proofs.Reduction.Verdict

/-! # Coefficients that jump

    A coefficient may jump at a breakpoint.  The grid of a piece contains both of
    its ends, and at the right one the coefficient has the value of the next piece
    already.  So a jump is accepted if it keeps the sign; a jump across zero is taken
    for a zero of the piece before it. -/

namespace JetForm

/-! ## Step functions -/

section

variable {K : Type} [LinearOrder K] [Finiteness K]

/-- The function has one value on each piece of a domain.  At a breakpoint it has that of the
    piece that starts there, and at the right end that of the last piece. -/
structure Domain.IsStep (d : Domain K) (vs : List K) (f : K → K) : Prop where
  length : vs.length + 1 = d.points.length
  inside : ∀ (k : Nat) (a b v : K), d.points[k]? = some a → d.points[k + 1]? = some b →
    vs[k]? = some v → ∀ t, a ≤ t → t < b → f t = v
  last : ∀ v, vs.getLast? = some v → f d.right = v

namespace Domain.IsStep

variable {d : Domain K} {vs : List K} {f : K → K} (step : d.IsStep vs f)
include step

/-- A piece has a value, and its right end has the value of the next piece, if there is one. -/
theorem exists_value {k : Nat} {a b : K} (ha : d.points[k]? = some a)
    (hb : d.points[k + 1]? = some b) :
    ∃ hk : k < vs.length, (∀ t, a ≤ t → t < b → f t = vs[k]) ∧
      (∀ more : k + 1 < vs.length, f b = vs[k + 1]) ∧ (vs.length = k + 1 → f b = vs[k]) := by
  have length := step.length
  obtain ⟨hb', rfl⟩ := List.getElem?_eq_some_iff.mp hb
  have hk : k < vs.length := by omega
  have inside := step.inside k a _ _ ha hb (List.getElem?_eq_getElem hk)
  refine ⟨hk, inside, fun more => ?_, fun last => ?_⟩
  · -- the next piece starts here, and it is not empty
    have hc : k + 2 < d.points.length := by omega
    have less := List.pairwise_iff_getElem.mp d.points_increasing (k + 1) (k + 2) hb' hc (by omega)
    exact step.inside (k + 1) _ _ _ hb (List.getElem?_eq_getElem hc)
      (List.getElem?_eq_getElem more) _ le_rfl less
  · have right : d.points[k + 1] = d.right := by
      rw [Domain.right, List.getLast_eq_getElem]
      congr 1
      omega
    rw [right]
    apply step.last
    rw [List.getLast?_eq_getElem?, last]
    exact List.getElem?_eq_getElem hk

/-- On a piece the function has the value of the piece or that at its right end. -/
theorem mem_of_piece {a b t : K} (piece : (a, b) ∈ d.intervals) (lower : a ≤ t) (upper : t ≤ b) :
    f t ∈ vs := by
  obtain ⟨k, ha, hb⟩ := mem_intervals_iff.mp piece
  obtain ⟨hk, inside, next, last⟩ := step.exists_value ha hb
  rcases upper.eq_or_lt with rfl | less
  · by_cases more : k + 1 < vs.length
    · rw [next more]
      exact List.getElem_mem more
    · rw [last (by omega)]
      exact List.getElem_mem hk
  · rw [inside t lower less]
    exact List.getElem_mem hk

end Domain.IsStep

/-- A function with a single value is a step function. -/
theorem Domain.isStep_const {d : Domain K} {f : K → K} {x : K}
    (const : ∀ t, d.left ≤ t → t ≤ d.right → f t = x) :
    d.IsStep (List.replicate (d.points.length - 1) x) f := by
  have two := d.two_le_length
  refine ⟨by rw [List.length_replicate]; omega, ?_, ?_⟩
  · intro k a b v ha hb hv t lower upper
    have piece : (a, b) ∈ d.intervals := mem_intervals_iff.mpr ⟨k, ha, hb⟩
    obtain ⟨left, right⟩ := within_of_mem_intervals piece lower upper.le
    rw [const t left right]
    exact (List.eq_of_mem_replicate (List.mem_of_getElem? hv)).symm
  · intro v hv
    rw [const d.right (within_of_mem d.right_mem).1 le_rfl]
    exact (List.eq_of_mem_replicate (List.mem_of_getLast? hv)).symm

end

namespace Singularity

variable {K : Type} [Field K] [LinearOrder K] [IsStrictOrderedRing K] [Finiteness K]

/-- On a piece nothing is found if the value of the piece has the sign of the next one. -/
theorem onPiece_of_step {d : Domain K} {vs : List K} {f : K → K} (step : d.IsStep vs f)
    {search : (K → K) → K → K → K × K} (bounded : IsBounded search) {threshold : K}
    (large : ∀ v ∈ vs, threshold < |v|) {k : Nat} {a b : K} (ha : d.points[k]? = some a)
    (hb : d.points[k + 1]? = some b) {points : List K} (grid : Domain.IsGrid a b points) :
    onPiece (search f) threshold (points.map fun t => (t, f t)) = none ↔
      ∀ more : k + 1 < vs.length, signOf vs[k] = signOf vs[k + 1] := by
  have piece : (a, b) ∈ d.intervals := Domain.mem_intervals_iff.mpr ⟨k, ha, hb⟩
  have less := Domain.lt_of_mem_intervals piece
  obtain ⟨hk, inside, next, last⟩ := step.exists_value ha hb
  rw [onPiece_eq_none_of_above bounded grid less.le fun t lower upper =>
    large _ (step.mem_of_piece piece lower upper)]
  constructor
  · -- the first sample has the value of the piece, the last one that of the next piece
    intro oneSign more
    have ends := oneSign a grid.first_mem b grid.last_mem
    rwa [inside a le_rfl less, next more] at ends
  · intro same
    have right : signOf (f b) = signOf vs[k] := by
      by_cases more : k + 1 < vs.length
      · rw [next more, same more]
      · rw [last (by omega)]
    have all : ∀ t ∈ points, signOf (f t) = signOf vs[k] := by
      intro t ht
      obtain ⟨lower, upper⟩ := grid.within less.le ht
      rcases upper.eq_or_lt with rfl | below
      · exact right
      · rw [inside t lower below]
    exact fun s hs t ht => (all s hs).trans (all t ht).symm

/-- Nothing is found if neighbouring values have one sign. -/
theorem ofSamples_of_step (total : ∀ x : K, Finiteness.isFinite x = true) {d : Domain K}
    {vs : List K} {f : K → K} (step : d.IsStep vs f) {search : (K → K) → K → K → K × K}
    (bounded : IsBounded search) {grid : K → K → List K}
    (grids : ∀ a b, a < b → Domain.IsGrid a b (grid a b)) {tolerance : K}
    (large : ∀ v ∈ vs, ∀ w ∈ vs, tolerance * max 1 |w| < |v|) :
    ofSamples grid search tolerance f d = none ↔
      vs.IsChain fun v w => signOf v = signOf w := by
  obtain ⟨scale, same, attained, one_le, -⟩ :=
    threshold_exact total tolerance ((samples grid f d).flatten.map Prod.snd)
  have above : ∀ v ∈ vs, tolerance * scale < |v| := by
    intro v hv
    rcases attained with rfl | ⟨x, hx, rfl⟩
    · -- the scale of `v` itself is at least one
      rcases le_total |v| 1 with small | more
      · simpa [max_eq_left small] using large v hv v hv
      · have own := large v hv v hv
        rw [max_eq_right more] at own
        have below : tolerance < 1 := by
          by_contra atLeast
          exact own.not_ge (le_mul_of_one_le_left (abs_nonneg v) (not_lt.mp atLeast))
        rw [mul_one]
        exact below.trans_le more
    · obtain ⟨a, b, piece, t, ht, rfl⟩ := mem_values_iff.mp hx
      have less := Domain.lt_of_mem_intervals piece
      obtain ⟨lower, upper⟩ := (grids a b less).within less.le ht
      have listed := large v hv (f t) (step.mem_of_piece piece lower upper)
      rwa [max_eq_right one_le] at listed
  have finite : ∀ l ∈ samples grid f d, ∀ s ∈ l, Finiteness.isFinite s.2 = true :=
    fun _ _ s _ => total s.2
  rw [ofSamples, ofPieces_eq_none_iff, and_iff_right finite, same, List.isChain_iff_getElem]
  -- piece by piece: a sign change between neighbouring values is seen on the piece they share
  constructor
  · intro accepted k more
    have length := step.length
    have ha := List.getElem?_eq_getElem (l := d.points) (i := k) (by omega)
    have hb := List.getElem?_eq_getElem (l := d.points) (i := k + 1) (by omega)
    have piece := Domain.mem_intervals_iff.mpr ⟨k, ha, hb⟩
    have clear := accepted _ (mem_samples_iff.mpr ⟨_, _, piece, rfl⟩)
    exact (onPiece_of_step step bounded above ha hb
      (grids _ _ (Domain.lt_of_mem_intervals piece))).mp clear more
  · intro chain l hl
    obtain ⟨a, b, piece, rfl⟩ := mem_samples_iff.mp hl
    obtain ⟨k, ha, hb⟩ := Domain.mem_intervals_iff.mp piece
    exact (onPiece_of_step step bounded above ha hb
      (grids a b (Domain.lt_of_mem_intervals piece))).mpr (chain k)

end Singularity

namespace LeadingCoefficient

open Singularity

/-- **Which jumps are accepted.**  An external coefficient that is constant on each piece of a
    domain, with no small values, is accepted if and only if neighbouring values have the same
    sign. -/
theorem verdict_of_jumps {K : Type} [Field K] [LinearOrder K] [IsStrictOrderedRing K]
    [Finiteness K] (total : ∀ x : K, Finiteness.isFinite x = true) {cosine : Nat → Int → K}
    (cosines : Domain.Cosines cosine) {count : Nat} (two : 2 ≤ count)
    {search : (K → K) → K → K → K × K} (bounded : IsBounded search) {value : Value → K → K}
    (unary : UnaryOp → K → K) (binary : BinaryOp → K → K → K) (read : Float → K)
    {a : Arena} {h var order v : Nat} {f : External} (node : a.node? h = some (.constant v))
    (external : a.value v = .external f) {c : LeadingCoefficient}
    (created : create a var order h = .ok c) {d : Domain K} {vs : List K}
    (step : d.IsStep vs (value (.external f))) {tolerance : K}
    (large : ∀ v ∈ vs, ∀ w ∈ vs, tolerance * max 1 |w| < |v|) :
    c.verdict (.exact value unary binary) read (Domain.chebyshevBy cosine count) search d
        tolerance = none ↔
      vs.IsChain fun v w => signOf v = signOf w := by
  have sampled := constant_of_external created node external
  have values : c.function.eval (.exact value unary binary) = value (.external f) := by
    funext t
    rw [eval_of_node created node, external]
  rw [verdict, sampled]
  dsimp only
  rw [values]
  exact ofSamples_of_step total step bounded
    (fun _ _ less => Domain.isGrid_chebyshevBy cosines two less) large

/-! ## A jump across zero -/

/-- One before the middle of the unit interval, and minus one from there on. -/
def signStep : External :=
  ⟨"sign", .step 0.5 1 (-1), some [0, 0.5, 1]⟩

theorem signStep_isStep : Solve.halves.IsStep [1, -1] (Value.rational (.external signStep)) := by
  have middle : rationalOfFloat 0.5 = 1 / 2 := by
    have value : rationalOfFloat 0.5 = 4503599627370496 * 2 ^ (-53 : Int) := rfl
    rw [value]
    norm_num
  have one : rationalOfFloat 1 = 1 := rationalOfFloat_one (by decide +kernel)
  have minus : rationalOfFloat (-1) = -1 := by
    have value : rationalOfFloat (-1) = -(4503599627370496 * 2 ^ (-52 : Int)) := rfl
    rw [value]
    norm_num
  have eval : ∀ t, Value.rational (.external signStep) t = if t < 1 / 2 then 1 else -1 := by
    intro t
    show (if t < rationalOfFloat 0.5 then rationalOfFloat 1 else rationalOfFloat (-1)) = _
    rw [middle, one, minus]
  refine ⟨rfl, ?_, ?_⟩
  · intro k a b v ha hb hv t lower upper
    rw [eval]
    match k, ha, hb, hv with
    | 0, _, hb, hv =>
      cases hb
      cases hv
      exact if_pos upper
    | 1, ha, _, hv =>
      cases ha
      cases hv
      exact if_neg lower.not_gt
  · intro v hv
    cases hv
    rw [eval]
    decide +kernel

theorem verdict_of_jumps_sign :
    (ofConstant (.external signStep) none).verdict rationalConstants rationalOfFloat
        (Domain.chebyshevBy (fun k n => 1 - 2 * (k : ℚ) / n) 2) leftEnd Solve.halves
        (1 / 10 ^ 12) = none ↔
      ([1, -1] : List ℚ).IsChain fun v w => signOf v = signOf w :=
  verdict_of_jumps (fun _ => rfl) Domain.cosines_even le_rfl isBounded_leftEnd _ _ rationalOfFloat
    rfl rfl (create_external signStep) signStep_isStep (by decide +kernel)

/-- Its values are large, and it carries the breakpoint where it jumps; still it is refused. -/
theorem jump_across_zero_refused :
    create (.ofConstant (.external signStep)) 0 1 0 = .ok (ofConstant (.external signStep) none) ∧
      Solve.halves.IsStep [1, -1] (Value.rational (.external signStep)) ∧
      (∀ v ∈ ([1, -1] : List ℚ), ∀ w ∈ ([1, -1] : List ℚ), 1 / 10 ^ 12 * max 1 |w| < |v|) ∧
      (ofConstant (.external signStep) none).verdict rationalConstants rationalOfFloat
        (Domain.chebyshevBy (fun k n => 1 - 2 * (k : ℚ) / n) 2) leftEnd Solve.halves
        (1 / 10 ^ 12) ≠ none := by
  refine ⟨create_external signStep, signStep_isStep, by decide +kernel, ?_⟩
  rw [← Option.isSome_iff_ne_none]
  decide +kernel

end LeadingCoefficient

end JetForm
