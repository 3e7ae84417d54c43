import JetForm.Proofs.Reduction.Jumps

/-! # Plain numbers and other coefficients

    A plain number is refused if it is zero.  The same number in any other form is
    sampled, and refused as well if it is small compared with one.  So two
    coefficients with the same values get the same verdict if both are sampled or
    both are plain numbers; if only one of them is, the verdicts differ for the
    numbers that are small without being zero, and for no others. -/

namespace JetForm

namespace Singularity

variable {K : Type} [Field K] [LinearOrder K] [IsStrictOrderedRing K] [Finiteness K]
  (total : ∀ x : K, Finiteness.isFinite x = true)
include total

omit [IsStrictOrderedRing K] in
theorem ofNumber_eq_none_iff {order : Int} {x : K} : ofNumber order x = none ↔ x ≠ 0 := by
  simp [ofNumber, total]

omit total [Finiteness K] in
/-- The tests of a number, plain and in another form, agree unless it is small without being
    zero. -/
theorem tests_agree_iff {tolerance : K} (nonneg : 0 ≤ tolerance) {x : K} :
    (x ≠ 0 ↔ tolerance < |x|) ↔ x = 0 ∨ tolerance < |x| := by
  constructor
  · intro agree
    exact (eq_or_ne x 0).imp_right agree.mp
  · rintro (rfl | above)
    · simp [nonneg]
    · exact iff_of_true (abs_pos.mp (nonneg.trans_lt above)) above

/-- A number is refused as a sample if it is small compared with one. -/
theorem ofSamples_eq_none_of_const {grid : K → K → List K}
    (grids : ∀ a b, a < b → Domain.IsGrid a b (grid a b)) {search : (K → K) → K → K → K × K}
    (bounded : IsBounded search) {tolerance : K} (nonneg : 0 ≤ tolerance) (below : tolerance < 1)
    {d : Domain K} {f : K → K} {x : K} (const : ∀ t, d.left ≤ t → t ≤ d.right → f t = x) :
    ofSamples grid search tolerance f d = none ↔ tolerance < |x| := by
  constructor
  · intro accepted
    -- the first sample is compared with at least one
    obtain ⟨⟨a, b⟩, piece⟩ := List.exists_mem_of_ne_nil _ d.intervals_ne_nil
    have less := Domain.lt_of_mem_intervals piece
    obtain ⟨left, right⟩ := Domain.within_of_mem_intervals piece le_rfl less.le
    have clear := (ofPieces_eq_none_iff.mp accepted).2 _ (mem_samples_iff.mpr ⟨a, b, piece, rfl⟩)
    have first := (onPiece_eq_none_iff.mp clear).1 (a, f a)
      (List.mem_map_of_mem (grids a b less).first_mem)
    obtain ⟨scale, same, -, one_le, -⟩ :=
      threshold_exact total tolerance ((samples grid f d).flatten.map Prod.snd)
    rw [same, Linear.magnitude_eq_abs, const a left right, not_le] at first
    exact (le_mul_of_one_le_right nonneg one_le).trans_lt first
  · intro above
    have values : ∀ v ∈ List.replicate (d.points.length - 1) x, v = x :=
      fun v hv => List.eq_of_mem_replicate hv
    -- since the tolerance is below one, the number is never small compared with itself
    have large : tolerance * max 1 |x| < |x| := by
      rcases le_total |x| 1 with small | more
      · rwa [max_eq_left small, mul_one]
      · rw [max_eq_right more]
        exact mul_lt_of_lt_one_left (zero_lt_one.trans_le more) below
    refine (ofSamples_of_step total (Domain.isStep_const const) bounded grids ?_).mpr ?_
    · intro v hv w hw
      rwa [values v hv, values w hw]
    · rw [List.isChain_iff_getElem]
      intro k hk
      rw [values _ (List.getElem_mem _), values _ (List.getElem_mem _)]

end Singularity

namespace LeadingCoefficient

open Singularity

section

variable {K : Type} [Field K] [LinearOrder K] [Finiteness K]

/-- The verdict on a plain number depends on nothing but whether its value is zero. -/
theorem verdict_of_plain (total : ∀ x : K, Finiteness.isFinite x = true) {value : Value → K → K}
    (unary : UnaryOp → K → K) (binary : BinaryOp → K → K → K) {read : Float → K}
    (numbers : ∀ n x, Number.toDouble n = .ok x → x.isFinite = true →
      ∀ t, value (.number n) t = read x)
    {a : Arena} {h var order : Nat} {c : LeadingCoefficient}
    (created : create a var order h = .ok c)
    (finite : ∀ x, c.constant = some x → x.isFinite = true) (plain : c.constant.isSome = true) :
    ∃ y, (∀ t, c.function.eval (.exact value unary binary) t = y) ∧
      ∀ grid search d tolerance,
        c.verdict (.exact value unary binary) read grid search d tolerance = none ↔ y ≠ 0 := by
  obtain ⟨x, plain⟩ := Option.isSome_iff_exists.mp plain
  obtain ⟨v, n, node, number, double⟩ := exists_number created plain
  refine ⟨read x, fun t => ?_, fun grid search d tolerance => ?_⟩
  · rw [eval_of_node created node, number, numbers n x double (finite x plain)]
  · rw [verdict, plain]
    dsimp only
    rw [if_pos (finite x plain), ofNumber_eq_none_iff total]

variable [IsStrictOrderedRing K] (total : ∀ x : K, Finiteness.isFinite x = true)
  {cosine : Nat → Int → K} (cosines : Domain.Cosines cosine) {count : Nat} (two : 2 ≤ count)
  {search : (K → K) → K → K → K × K} (bounded : IsBounded search)
include total cosines two bounded

/-- The verdict on any other coefficient with a single value. -/
theorem verdict_of_sampled (E : Evaluation K) (read : Float → K) {c : LeadingCoefficient}
    (sampled : c.constant.isSome = false) {tolerance : K} (nonneg : 0 ≤ tolerance)
    (below : tolerance < 1) {d : Domain K} {y : K}
    (const : ∀ t, d.left ≤ t → t ≤ d.right → c.function.eval E t = y) :
    c.verdict E read (Domain.chebyshevBy cosine count) search d tolerance = none ↔
      tolerance < |y| := by
  have sampled : c.constant = none := by simpa using sampled
  rw [verdict, sampled]
  exact ofSamples_eq_none_of_const total
    (fun _ _ less => Domain.isGrid_chebyshevBy cosines two less) bounded nonneg below const

omit total in
/-- Two other coefficients with the same values get the same verdict. -/
theorem verdict_congr_of_sampled (E : Evaluation K) (read : Float → K) {c c' : LeadingCoefficient}
    (sampled : c.constant.isSome = false) (sampled' : c'.constant.isSome = false) {tolerance : K}
    {d : Domain K}
    (same : ∀ t, d.left ≤ t → t ≤ d.right → c.function.eval E t = c'.function.eval E t) :
    c.verdict E read (Domain.chebyshevBy cosine count) search d tolerance =
      c'.verdict E read (Domain.chebyshevBy cosine count) search d tolerance := by
  have sampled : c.constant = none := by simpa using sampled
  have sampled' : c'.constant = none := by simpa using sampled'
  rw [verdict, verdict, sampled, sampled']
  exact ofSamples_congr (fun _ _ less => Domain.isGrid_chebyshevBy cosines two less) bounded same

/-- **Which coefficients with the same values get the same verdict.**  Both are accepted or
    both are refused if both or none of them are plain numbers.  Otherwise that is so if and only
    if their value is zero or above the tolerance. -/
theorem verdict_agrees_iff {value : Value → K → K} {unary : UnaryOp → K → K}
    {binary : BinaryOp → K → K → K} {read : Float → K}
    (numbers : ∀ n x, Number.toDouble n = .ok x → x.isFinite = true →
      ∀ t, value (.number n) t = read x)
    {tolerance : K} (nonneg : 0 ≤ tolerance) (below : tolerance < 1) (d : Domain K)
    {a b : Arena} {g h var var' order order' : Nat} {c c' : LeadingCoefficient}
    (created : create a var order g = .ok c) (created' : create b var' order' h = .ok c')
    (finite : ∀ x, c.constant = some x → x.isFinite = true)
    (finite' : ∀ x, c'.constant = some x → x.isFinite = true)
    (same : ∀ t, d.left ≤ t → t ≤ d.right →
      c.function.eval (.exact value unary binary) t =
        c'.function.eval (.exact value unary binary) t) :
    let E : Evaluation K := .exact value unary binary
    let grid := Domain.chebyshevBy cosine count
    (c.verdict E read grid search d tolerance = none ↔
        c'.verdict E read grid search d tolerance = none) ↔
      c.constant.isSome = c'.constant.isSome ∨ c.function.eval E d.left = 0 ∨
        tolerance < |c.function.eval E d.left| := by
  intro E grid
  have ordered : d.left ≤ d.right := (Domain.within_of_mem d.left_mem).2
  have start := same d.left le_rfl ordered
  -- two plain or two sampled coefficients agree; a plain one against a sampled one is the test
  cases plain : c.constant.isSome with
  | true =>
    obtain ⟨y, eval, first⟩ := verdict_of_plain total unary binary numbers created finite plain
    cases plain' : c'.constant.isSome with
    | true =>
      obtain ⟨y', eval', second⟩ :=
        verdict_of_plain total unary binary numbers created' finite' plain'
      rw [eval, eval'] at start
      rw [first, second, start]
      exact iff_of_true Iff.rfl (Or.inl rfl)
    | false =>
      have second := verdict_of_sampled total cosines two bounded E read plain' nonneg below
        fun t left right => (same t left right).symm.trans (eval t)
      rw [first, second, tests_agree_iff nonneg, eval d.left]
      simp
  | false =>
    cases plain' : c'.constant.isSome with
    | true =>
      obtain ⟨y, eval, second⟩ :=
        verdict_of_plain total unary binary numbers created' finite' plain'
      have first := verdict_of_sampled total cosines two bounded E read plain nonneg below
        fun t left right => (same t left right).trans (eval t)
      rw [first, second, iff_comm (a := tolerance < |y|), tests_agree_iff nonneg, start,
        eval d.left]
      simp
    | false =>
      rw [verdict_congr_of_sampled cosines two bounded E read plain plain' same]
      exact iff_of_true Iff.rfl (Or.inl rfl)

end

/-! ## A tiny number -/

/-- A tenth of the usual tolerance. -/
def tinyPlain : LeadingCoefficient :=
  ofConstant (.number (.ofFloat 1e-13)) (some 1e-13)

/-- The same number as an external function. -/
def tinyExternal : LeadingCoefficient :=
  ofConstant (.external ⟨"tiny", .constant 1e-13, none⟩) none

theorem verdict_agrees_iff_tiny :
    let grid : ℚ → ℚ → List ℚ := Domain.chebyshevBy (fun k n => 1 - 2 * (k : ℚ) / n) 2
    let E := rationalConstants
    (tinyPlain.verdict E rationalOfFloat grid leftEnd Solve.halves (1 / 10 ^ 12) = none ↔
        tinyExternal.verdict E rationalOfFloat grid leftEnd Solve.halves (1 / 10 ^ 12) = none) ↔
      true = false ∨ tinyPlain.function.eval E Solve.halves.left = 0 ∨
        1 / 10 ^ 12 < |tinyPlain.function.eval E Solve.halves.left| :=
  verdict_agrees_iff (fun _ => rfl) Domain.cosines_even le_rfl isBounded_leftEnd
    (fun _ _ double _ _ => Number.rational_of_toDouble double) (by norm_num) (by norm_num)
    Solve.halves (create_number rfl) (create_external ⟨"tiny", .constant 1e-13, none⟩)
    (by
      intro x same
      cases same
      decide +kernel)
    nofun fun _ _ _ => rfl

/-- It is accepted as a plain number, and refused as an external function. -/
theorem tiny_forms_differ :
    let grid : ℚ → ℚ → List ℚ := Domain.chebyshevBy (fun k n => 1 - 2 * (k : ℚ) / n) 2
    let E := rationalConstants
    create (.ofConstant (.number (.ofFloat 1e-13))) 0 1 0 = .ok tinyPlain ∧
      create (.ofConstant (.external ⟨"tiny", .constant 1e-13, none⟩)) 0 1 0 = .ok tinyExternal ∧
      (∀ t, tinyPlain.function.eval E t = tinyExternal.function.eval E t) ∧
      tinyPlain.verdict E rationalOfFloat grid leftEnd Solve.halves (1 / 10 ^ 12) = none ∧
      tinyExternal.verdict E rationalOfFloat grid leftEnd Solve.halves (1 / 10 ^ 12) ≠ none := by
  intro grid E
  refine ⟨create_number rfl, create_external _, fun _ => rfl, ?_, ?_⟩
  · rw [← Option.isNone_iff_eq_none]
    decide +kernel
  · rw [← Option.isSome_iff_ne_none]
    decide +kernel

end LeadingCoefficient

end JetForm
