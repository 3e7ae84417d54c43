import JetForm.Proofs.Reduction.Normalize
import JetForm.Proofs.Tree.Differentiable

/-! # What normalising refuses

    Normalising accepts the trees in which it is asked for derivatives of linear expressions only,
    and refuses any other one because it would need symbolic differentiation.  There is one
    exception.  Pushing a derivative may leave a bare tree under a division, as in
    `diff((u + 1) / n)`, and the arena records the reciprocal of `n` for it.  If `n` is an integer
    out of the range of doubles it has none, and the pass fails although the derivative is one of a
    linear expression. -/

namespace JetForm

namespace Arena

variable {a : Arena} {roots : List Nat}

/-- All derivatives in the tree are ones of trees that can be differentiated. -/
def Differentiates (a : Arena) (h : Nat) : Prop :=
  ∀ g c k, a.Reaches h g → a.node? g = some (.derivative c k) → (a.expression c).Differentiable

theorem differentiates_iff {h : Nat} (inside : h < a.count) :
    a.Differentiates h ↔ (a.expression h).Regular := by
  constructor
  · intro differentiates t k occurs
    obtain ⟨g, reach, eq⟩ := (mem_parts_expression inside).mp occurs
    obtain ⟨c, stored, -, rfl⟩ := exists_derivative (reach.lt_count inside) eq
    exact differentiates g c k reach stored
  · intro regular g c k reach stored
    exact regular _ k ((mem_parts_expression inside).mpr ⟨g, reach, expression_eq stored⟩)

/-- Normalising ends well if the derivatives are ones of trees that can be differentiated and what
    is left can be recorded.  It refuses a derivative only if there is one of another tree, and
    meets a fault only if something is divided by a number without a reciprocal. -/
theorem normalize_outcome (wf : a.WellFormed) (inside : ∀ r ∈ roots, r < a.count) :
    Ends (normalize roots) a
      (fun _ _ => ∀ r ∈ roots, a.Differentiates r ∧
        ∀ t, (a.expression r).normalForm = some t → t.solid = true)
      fun e _ => ((∃ r ∈ roots, ¬ a.Differentiates r) ∧ ∃ op var, e = .symbolicDerivative op var) ∨
        ((∃ r ∈ roots, (a.expression r).invertible = false ∧
          Tree.Unbuildable (a.expression r).normalForm) ∧ ∃ f, e = .fault f) := by
  apply (normalize_ends wf inside).mono
  · rintro hs b ⟨-, -, normal⟩ r hr
    obtain ⟨h, -, normalizes⟩ := exists_mem_of_forall₂_left normal hr
    refine ⟨?_, ?_⟩
    · exact (differentiates_iff (inside r hr)).mpr (Tree.regular_of_normalForm normalizes.normalForm)
    · intro t form
      rw [normalizes.normalForm] at form
      exact Option.some.inj form ▸ normalizes.solid
  · rintro e b ⟨r, hr, ⟨none, error⟩ | ⟨broken, bad, fault⟩⟩
    · refine Or.inl ⟨⟨r, hr, ?_⟩, error⟩
      rw [differentiates_iff (inside r hr), ← Tree.normalForm_isSome_iff, none]
      simp
    · exact Or.inr ⟨⟨r, hr, bad, broken⟩, fault⟩

/-- **Normalising accepts the linear derivatives.**  It succeeds if and only if all derivatives are
    ones of trees that can be differentiated, and what they become can be recorded.  The second is
    no condition where all divisors have reciprocals, and then every failure is the refusal of a
    derivative. -/
theorem normalize_differentiable (wf : a.WellFormed) (inside : ∀ r ∈ roots, r < a.count) :
    ((∃ hs b, normalize roots a = .ok hs b) ↔ ∀ r ∈ roots, a.Differentiates r ∧
      ∀ t, (a.expression r).normalForm = some t → t.solid = true) ∧
    ((∀ r ∈ roots, (a.expression r).invertible = true) →
      ((∃ hs b, normalize roots a = .ok hs b) ↔ ∀ r ∈ roots, a.Differentiates r) ∧
      ∀ e b, normalize roots a = .error e b → ∃ op var, e = .symbolicDerivative op var) := by
  have outcome := normalize_outcome wf inside
  have exact : (∃ hs b, normalize roots a = .ok hs b) ↔ ∀ r ∈ roots, a.Differentiates r ∧
      ∀ t, (a.expression r).normalForm = some t → t.solid = true := by
    apply Ends.exists_ok_iff
    apply outcome.mono
    · exact fun _ _ => id
    · rintro e b (⟨⟨r, hr, other⟩, -⟩ | ⟨⟨r, hr, -, broken⟩, -⟩) accepted
      · exact other (accepted r hr).1
      · obtain ⟨differentiates, solid⟩ := accepted r hr
        obtain ⟨t, form⟩ := Tree.normalForm_isSome_iff.mpr
          ((differentiates_iff (inside r hr)).mp differentiates)
        exact absurd (solid t form) (by simp [broken t form])
  refine ⟨exact, fun invertible => ⟨?_, ?_⟩⟩
  · rw [exact]
    refine forall₂_congr fun r hr => and_iff_left_of_imp fun _ t form => ?_
    exact Tree.solid_of_invertible (Tree.invertible_normalForm form (invertible r hr))
  · intro e b run
    rcases outcome.of_error run with ⟨-, error⟩ | ⟨⟨r, hr, bad, -⟩, -⟩
    · exact error
    · rw [invertible r hr] at bad
      cases bad

/-- The derivative of `(u + 1) / n`. -/
def slope (n : Int) : Building Nat := do
  let u ← leaf 0
  let s ← binary .plus (.treeValue u (← intern (.number (.int 1))))
  derivative (← binary .rdivide (.treeValue s (← intern (.number (.int n))))) 1

/-- The tree of `slope n`. -/
def slopeTree (n : Int) : Tree :=
  .derivative (.treeValue .rdivide (.treeValue .plus (.leaf 0) (.number (.int 1)))
    (.number (.int n))) 1

theorem slope_makes (n : Int) :
    Ends (slope n) (empty 1) ((empty 1).Makes (slopeTree n)) fun _ _ => False := by
  refine Ends.bind ((leaf_makes (wellFormed_empty 1 0) (by decide)).weaken ?_)
  intro u a₁ unknown
  refine Ends.bind ((intern_interns unknown.wellFormed _).weaken ?_)
  intro v a₂ one
  have hu := one.grown.lt_count unknown.inside
  have tree := one.grown.expression unknown.wellFormed unknown.inside
  refine Ends.bind ((treeValue_exact one.wellFormed .plus hu one.inside).mono ?_ ?_)
  · rintro s a₃ ⟨sum, -⟩
    rw [tree, unknown.expression, one.key] at sum
    refine Ends.bind ((intern_interns sum.wellFormed _).weaken ?_)
    intro w a₄ number
    have hs := number.grown.lt_count sum.inside
    have same := number.grown.expression sum.wellFormed sum.inside
    refine Ends.bind ((treeValue_exact number.wellFormed .rdivide hs number.inside).mono ?_ ?_)
    · rintro q a₅ ⟨quotient, -⟩
      rw [same, sum.expression, number.key] at quotient
      refine (derivative_makes quotient.wellFormed (k := 1) (by decide) quotient.inside).weaken ?_
      intro h a made
      rw [quotient.expression] at made
      exact made.after ((((unknown.grown.trans one.grown).trans sum.grown).trans
        number.grown).trans quotient.grown)
    · -- a sum is not bare, it can be divided by any number
      rintro _ _ ⟨refused, -⟩
      rw [same, sum.expression] at refused
      cases refused
  · rintro _ _ ⟨refused, -⟩
    cases refused

/-- The summand is dropped, and the quotient is that of a bare tree. -/
theorem normalForm_slopeTree (n : Int) : (slopeTree n).normalForm =
    some (.treeValue .rdivide (.derivative (.leaf 0) 1) (.number (.int n))) := rfl

theorem slope_differentiates {n : Int} {h : Nat} (made : (empty 1).Makes (slopeTree n) h a) :
    a.Differentiates h := by
  rw [differentiates_iff made.inside, made.expression]
  exact Tree.normalForm_isSome_iff.mp ⟨_, normalForm_slopeTree n⟩

/-- The derivative of `(u + 1) / 2` is found. -/
theorem normalize_differentiable_slope : ∃ h a hs b, slope 2 (empty 1) = .ok h a ∧
    a.Differentiates h ∧ normalize [h] a = .ok hs b := by
  obtain ⟨h, a, built, made⟩ := (slope_makes 2).exists_ok
  have inside : ∀ r ∈ [h], r < a.count := by simpa using made.inside
  have invertible : ∀ r ∈ [h], (a.expression r).invertible = true := by
    rintro r hr
    obtain rfl := List.mem_singleton.mp hr
    rw [made.expression]
    decide +kernel
  have differentiates := slope_differentiates made
  obtain ⟨accepts, -⟩ := (normalize_differentiable made.wellFormed inside).2 invertible
  obtain ⟨hs, b, run⟩ := accepts.mpr (by simpa using differentiates)
  exact ⟨h, a, hs, b, built, differentiates, run⟩

/-- The sum can be divided by an integer out of the range of doubles, but the derivative of the
    quotient is not found, although it is one of a linear expression, and it is not refused. -/
theorem normalize_fails_slope : ∃ h a, slope (10 ^ 309) (empty 1) = .ok h a ∧
    a.Differentiates h ∧ ∃ f b, normalize [h] a = .error (.fault f) b := by
  obtain ⟨h, a, built, made⟩ := (slope_makes (10 ^ 309)).exists_ok
  have inside : ∀ r ∈ [h], r < a.count := by simpa using made.inside
  refine ⟨h, a, built, slope_differentiates made, ?_⟩
  have broken : Tree.solid
      (.treeValue .rdivide (.derivative (.leaf 0) 1) (.number (.int (10 ^ 309)))) = false := by
    decide +kernel
  have outcome := normalize_outcome made.wellFormed inside
  cases run : normalize [h] a with
  | ok hs b =>
    have solid := (outcome.of_ok run h (by simp)).2
    rw [made.expression] at solid
    exact absurd (solid _ (normalForm_slopeTree _)) (by rw [broken]; decide)
  | error e b =>
    rcases outcome.of_error run with ⟨⟨r, hr, other⟩, -⟩ | ⟨-, f, rfl⟩
    · obtain rfl := List.mem_singleton.mp hr
      exact absurd (slope_differentiates made) other
    · exact ⟨f, b, rfl⟩

end Arena

end JetForm
