import JetForm.Proofs.Reduction.Halves
import JetForm.Proofs.Reduction.StoredValues
import JetForm.Proofs.Tree.Linear

/-! # Extraction is sound and complete

    What the pass over shared nodes extracts is right in every field:
    `Arena.extractLeading_separates` says that the tree has the value of `coeff * D + rest`, and
    what the coefficient and the rest do not depend on.

    `Arena.extractLeading_linear` says when it succeeds: for the trees of the grammar
    `Tree.Linear`, and for no others.  There is one thing that can stop it, a quotient that the
    arena refuses to record.  `(u' + u) / n` has been recorded, as `u' + u` is not bare, but its
    rest is `u / n`, and for an integer `n` out of the range of doubles there is no reciprocal. -/

namespace JetForm

universe u

/-! ## Stored values -/

theorem Tree.Arithmetic.mapValues {K : Type*} [Field K] {value : Tree → K}
    (arithmetic : Arithmetic value) (f : Value → Value) :
    Arithmetic fun t => value (t.mapValues f) where
  uplus t := arithmetic.uplus (t.mapValues f)
  uminus t := arithmetic.uminus (t.mapValues f)
  plus l r := arithmetic.plus (l.mapValues f) (r.mapValues f)
  minus l r := arithmetic.minus (l.mapValues f) (r.mapValues f)
  times l r := arithmetic.times (l.mapValues f) (r.mapValues f)
  rdivide l r := arithmetic.rdivide (l.mapValues f) (r.mapValues f)
  valueTree op v t := arithmetic.valueTree op (f v) (t.mapValues f)
  treeValue op t v := arithmetic.treeValue op (t.mapValues f) (f v)

namespace Arena

variable {a b : Arena}

/-- What holds of the expressions for all arithmetic values holds of the trees. -/
theorem exists_stored_value (wf : a.WellFormed) {K : Type*} [Field K] {value : Tree → K}
    (arithmetic : Tree.Arithmetic value)
    (unit : ∀ v : Value, v.key = .number (.ofFloat 1) → value (.constant v) = 1) :
    ∃ value' : Tree → K, Tree.Arithmetic value' ∧ value' Tree.one = 1 ∧
      (∀ var order, value' (.derivative (.leaf var) order) =
        value (.derivative (.leaf var) order)) ∧
      ∀ h, h < a.count → value' (a.expression h) = value (a.tree h) := by
  obtain ⟨f, restores, keyed⟩ := exists_restores wf
  refine ⟨fun t => value (t.mapValues f), arithmetic.mapValues f, ?_, fun _ _ => rfl, ?_⟩
  · apply unit
    rcases keyed (.number (.ofFloat 1)) with same | same
    · rw [same, Value.key_one]
    · exact same
  · intro h inside
    exact congrArg value (restores.mapValues wf inside)

/-! ## Soundness -/

/-- **Extraction is sound.**  In every field, and whatever unknowns, derivatives, constants other
    than one and operations other than arithmetic stand for, the tree is `coeff * D + rest`.  The
    coefficient depends on no unknown, the rest has only lower derivatives of the unknown, and the
    nodes of the tree are what they were. -/
theorem extractLeading_separates (wf : a.WellFormed) {root : Nat} (inside : root < a.count)
    {var : Nat} (known : var < a.size) {order : Nat} (positive : 0 < order) {l : Leading}
    (extracted : extractLeading root var order a = .ok (some l) b) :
    (∀ (K : Type u) [Field K] (value : Tree → K), Tree.Arithmetic value →
      (∀ v : Value, v.key = .number (.ofFloat 1) → value (.constant v) = 1) →
      value (a.tree root) = value (b.tree l.coeff) * value (.derivative (.leaf var) order) +
        Tree.partValue value (l.rest.map b.tree)) ∧
    (l.coeff < b.count ∧ (b.info l.coeff).mask = 0) ∧
    (∀ r, l.rest = some r → r < b.count ∧
      (∃ k, (b.info r).diffOrder[var]? = some k ∧ k < order) ∧
      ∀ k, order ≤ k → (b.expression r).Lacks var k) ∧
    ∀ h, a.Reaches root h →
      b.node? h = a.node? h ∧ b.info h = a.info h ∧ b.tree h = a.tree h := by
  have outcome := (extractLeading_exact wf inside known order).of_ok extracted
  rcases outcome with ⟨none, -⟩ | ⟨l, x, same, lead, reads⟩
  · cases none
  · cases same
    -- both parts are handles of the halves of the tree
    have grown := reads.grown
    have wfb := reads.wellFormed
    obtain ⟨rfl, insideCoeff, insideRest⟩ := reads.eq
    have separates := Tree.separates_of_lead lead
    refine ⟨?_, ⟨insideCoeff, ?_⟩, ?_, ?_⟩
    · intro K _ value arithmetic unit
      obtain ⟨value', arithmetic', unit', jets, restored⟩ :=
        exists_stored_value wfb arithmetic unit
      have root' : value' (a.expression root) = value (a.tree root) := by
        rw [← grown.expression wf inside, restored root (grown.lt_count inside),
          grown.tree wf inside]
      have rest' : Tree.partValue value' (l.rest.map b.expression) =
          Tree.partValue value (l.rest.map b.tree) := by
        cases found : l.rest with
        | none => rfl
        | some r => exact restored r (insideRest r found)
      rw [← root', separates.value arithmetic' unit', Tree.partValue_some,
        restored _ insideCoeff, jets, rest']
    · by_contra opened
      have closed := separates.closed _ rfl
      rw [(Extract.mask_iff wfb insideCoeff).mp opened] at closed
      cases closed
    · intro r eq
      have hr := insideRest r eq
      have low := separates.low positive (b.expression r) (congrArg (Option.map b.expression) eq)
      refine ⟨hr, ⟨_, diffOrder_info_getElem? wfb hr (grown.size ▸ known), low⟩, ?_⟩
      intro k above
      exact Tree.lacks_of_lt (low.trans_le above)
    · intro h reach
      have stored := reach.lt_count inside
      exact ⟨grown.node_eq stored, grown.info h stored, grown.tree wf stored⟩

/-- `(u' + u) / n`. -/
def quotient (n : Int) : Building Nat := do
  let u ← leaf 0
  let s ← binary .plus (.treeTree (← derivative u 1) u)
  binary .rdivide (.treeValue s (← intern (.number (.int n))))

/-- The tree of `quotient n`. -/
def quotientTree (n : Int) : Tree :=
  .treeValue .rdivide (.treeTree .plus (.derivative (.leaf 0) 1) (.leaf 0)) (.number (.int n))

/-- A sum is divided by any number. -/
theorem quotient_makes (n : Int) :
    Ends (quotient n) (empty 1) ((empty 1).Makes (quotientTree n)) fun _ _ => False := by
  refine Ends.bind ((leaf_makes (wellFormed_empty 1 0) (by decide)).weaken ?_)
  intro u a₁ unknown
  refine Ends.bind ((derivative_makes unknown.wellFormed (by decide) unknown.inside).weaken ?_)
  intro d a₂ rate
  have hu := rate.grown.lt_count unknown.inside
  have tree := rate.grown.expression unknown.wellFormed unknown.inside
  refine Ends.bind ((treeTree_makes rate.wellFormed .plus rate.inside hu).weaken ?_)
  intro s a₃ sum
  rw [rate.expression, tree, unknown.expression] at sum
  refine Ends.bind ((intern_interns sum.wellFormed _).weaken ?_)
  intro v a₄ number
  have hs := number.grown.lt_count sum.inside
  have same := number.grown.expression sum.wellFormed sum.inside
  apply (treeValue_exact number.wellFormed .rdivide hs number.inside).mono
  · intro h a₅ made
    rw [same, sum.expression, number.key] at made
    exact made.1.after (((unknown.grown.trans rate.grown).trans sum.grown).trans number.grown)
  · rintro _ _ ⟨refused, -⟩
    rw [same, sum.expression] at refused
    cases refused

/-- `(u' + u) / 2` where `u` is 3, `u'` is 7 and 2 is 2. -/
def quotientMeaning : Meaning ℚ :=
  Meaning.field ⟨fun _ => 3, 0, fun v => if v.key = .number (.ofFloat 1) then 1 else 2, fun _ => 0,
    fun _ _ => 0, fun _ _ _ => 0, fun _ _ => 7⟩

theorem extractLeading_separates_quotient :
    ∃ h a l b, quotient 2 (empty 1) = .ok h a ∧
      extractLeading h (0 : Nat) 1 a = .ok (some l) b ∧
      (a.tree h).denote quotientMeaning = (b.tree l.coeff).denote quotientMeaning * 7 +
        Tree.partValue (Tree.denote quotientMeaning) (l.rest.map b.tree) ∧
      (b.info l.coeff).mask = 0 ∧ b.tree h = a.tree h := by
  obtain ⟨h, a, built, made⟩ := (quotient_makes 2).exists_ok
  have known : 0 < a.size := made.grown.size ▸ Nat.one_pos
  have lead : (quotientTree 2).lead 0 1 ≠ none := by decide +kernel
  have total : Ends (extractLeading h (0 : Nat) 1) a (fun leading _ => ∃ l, leading = some l)
      fun _ _ => False := by
    apply (extractLeading_exact made.wellFormed made.inside known 1).mono
    · rintro leading b (⟨-, none, -⟩ | ⟨l, x, rfl, -⟩)
      · exact absurd (made.expression ▸ none) lead
      · exact ⟨l, rfl⟩
    · exact fun _ _ refused => lead (made.expression ▸ refused.1)
  obtain ⟨leading, b, run, l, rfl⟩ := total.exists_ok
  obtain ⟨value, ⟨-, mask⟩, -, kept⟩ :=
    extractLeading_separates made.wellFormed made.inside known Nat.one_pos run
  refine ⟨h, a, l, b, built, run, ?_, mask, (kept h (Reaches.refl a h)).2.2⟩
  exact value ℚ _ (Tree.arithmetic_denote _) fun v one => if_pos one

/-! ## Completeness -/

/-- **Extraction succeeds for linear trees, and only for these.**  Where the derivatives in a tree
    are ones of unknowns, none of the unknown of a higher order than the one that is extracted,
    the answer is right.  There is none only if the tree divides by a number that has no
    reciprocal, that is by an integer out of the range of doubles. -/
theorem extractLeading_linear (wf : a.WellFormed) {root : Nat} (inside : root < a.count)
    (plain : (a.expression root).OnUnknowns) {var : Nat} (known : var < a.size) {order : Nat}
    (positive : 0 < order) (bounded : ∃ k, (a.info root).diffOrder[var]? = some k ∧ k ≤ order) :
    Ends (extractLeading root var order) a
      (fun leading _ => leading.isSome = true ↔ (a.expression root).Linear var order)
      fun _ _ => (a.expression root).invertible = false := by
  have highest : (a.expression root).Bounded var order := by
    obtain ⟨k, stored, le⟩ := bounded
    rw [diffOrder_info_getElem? wf inside known] at stored
    cases stored
    exact ⟨plain, le⟩
  apply (extractLeading_exact wf inside known order).mono
  · rintro leading b (⟨rfl, none, separated⟩ | ⟨l, x, rfl, lead, -⟩)
    · refine ⟨by simp, fun linear => ?_⟩
      obtain ⟨x, found⟩ := separated (linear.separable positive highest)
      obtain ⟨z, some⟩ := linear.exists_lead found
      cases none.symm.trans some
    · exact ⟨fun _ => Tree.linear_of_lead lead, fun _ => rfl⟩
  · exact fun _ _ refused => refused.2.1

theorem quotientTree_linear (n : Int) : (quotientTree n).Linear 0 1 :=
  .overValue (.before (Or.inl rfl) .jet (Tree.lacks_of_lt (by decide)))

/-- The sum is divided by two, and the derivative extracted. -/
theorem extractLeading_linear_quotient :
    ∃ h a l b, quotient 2 (empty 1) = .ok h a ∧ (a.expression h).Linear 0 1 ∧
      extractLeading h (0 : Nat) 1 a = .ok (some l) b := by
  obtain ⟨h, a, built, made⟩ := (quotient_makes 2).exists_ok
  have known : 0 < a.size := made.grown.size ▸ Nat.one_pos
  have linear : (a.expression h).Linear 0 1 := made.expression ▸ quotientTree_linear 2
  have plain : (a.expression h).OnUnknowns := by
    rw [made.expression]
    exact Tree.onUnknowns_of_isNormal rfl
  have order : (a.expression h).diffOrder 0 = 1 := by rw [made.expression]; rfl
  have outcome := extractLeading_linear made.wellFormed made.inside plain known Nat.one_pos
    ⟨_, diffOrder_info_getElem? made.wellFormed made.inside known, order.le⟩
  have divides : (quotientTree 2).invertible = true := by decide +kernel
  obtain ⟨leading, b, run, answer⟩ := (outcome.mono (fun _ _ => id) (fun _ _ refused => by
    rw [made.expression, divides] at refused
    cases refused)).exists_ok
  obtain ⟨l, rfl⟩ := Option.isSome_iff_exists.mp (answer.mpr linear)
  exact ⟨h, a, l, b, built, linear, run⟩

/-- The sum can be divided by an integer out of the range of doubles, but nothing can be extracted
    from the quotient, although it is linear. -/
theorem extractLeading_refuses_quotient :
    ∃ h a, quotient (10 ^ 309) (empty 1) = .ok h a ∧ (a.expression h).Linear 0 1 ∧
      ∃ e b, extractLeading h (0 : Nat) 1 a = .error e b := by
  obtain ⟨h, a, built, made⟩ := (quotient_makes (10 ^ 309)).exists_ok
  have known : 0 < a.size := made.grown.size ▸ Nat.one_pos
  refine ⟨h, a, built, made.expression ▸ quotientTree_linear _, ?_⟩
  have halve : (quotientTree (10 ^ 309)).halve 0 1 = none := by decide +kernel
  have separable : (quotientTree (10 ^ 309)).separable 0 1 = true := by decide +kernel
  have outcome := extractLeading_exact made.wellFormed made.inside known 1
  rw [made.expression] at outcome
  cases run : extractLeading h (0 : Nat) 1 a with
  | error e b => exact ⟨e, b, rfl⟩
  | ok leading b =>
    rcases outcome.of_ok run with ⟨-, -, separated⟩ | ⟨l, x, -, lead, -⟩
    · obtain ⟨x, found⟩ := separated separable
      cases halve.symm.trans found
    · rw [Tree.lead, halve] at lead
      cases lead

end Arena

end JetForm
