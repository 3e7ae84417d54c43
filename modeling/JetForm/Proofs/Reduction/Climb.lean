import JetForm.Proofs.Differential.Solutions
import JetForm.Proofs.Numerics.Doubles
import JetForm.Proofs.Reduction.Splittable
import JetForm.Proofs.Trace.Recording
import JetForm.Proofs.Union

/-! # Problems of the form `u' = v`

    The smallest problems have a single unknown, and its rate of change is given on the right.
    They can be reduced in every workspace.  This is read off what is known of the stages: the
    placeholders are leaves, the derivative is recorded, and trees can be split if all that
    `Splittable` asks of them holds.  Theorems about reduction are applied to these problems. -/

namespace JetForm

namespace FirstOrder

/-- A single unknown climbs at a rate that is given on the right. -/
structure IsClimb (posed : Posed) (v : Value) : Prop where
  operators : ∃ op : Operator, posed.operators = [some op] ∧ op.parameters = some ["t", "u"] ∧
    ∀ t u, op.apply t [u] = .traced <$> u.diff (.number (.int 1))
  rhs : ∃ o, posed.rhs = .common o ∧ ∀ i w, rightHandSide i o w = .ok (.value v) w
  domain : posed.domain = [0, 1]
  orders : posed.orders = none
  left : posed.left = none
  right : posed.right = none
  options : posed.options = {}

/-- The rate of change of the only unknown. -/
def rate : Operator where
  parameters := some ["t", "u"]
  apply _ us :=
    match us with
    | u :: _ => .traced <$> u.diff (.number (.int 1))
    | [] => throw .argument

/-- The problem `u' = 1` on the unit interval. -/
def climb : Posed where
  operators := [some rate]
  domain := [0, 1]
  rhs := .common (.number (.int 1))

theorem climb_isClimb : IsClimb climb (.number (.int 1)) where
  operators := ⟨rate, rfl, rfl, fun _ _ => rfl⟩
  rhs := ⟨.number (.int 1), rfl, fun _ _ => rfl⟩
  domain := rfl
  orders := rfl
  left := rfl
  right := rfl
  options := rfl

theorem rate_lawful : rate.Lawful := by
  intro w t us _ unknowns
  cases us with
  | nil => exact Runs.throw
  | cons u us =>
    apply Runs.map
    have fits := Traced.fits_true.mpr (unknowns u List.mem_cons_self)
    apply (Traced.diff_runs inherited_always _ fits).weaken
    intro e w' _ known
    exact Operand.Stored.traced known.1.stored

theorem climb_lawful : climb.Lawful := by
  refine ⟨?_, ?_, ?_⟩
  · intro op listed
    cases List.mem_singleton.mp listed
    exact rate_lawful
  · exact fun _ given => nomatch given
  · exact fun _ given => nomatch given

/-- Handle `h` is that of `u'`, for the only unknown `u`. -/
structure IsRate (a : Arena) (h : Nat) : Prop where
  wellFormed : a.WellFormed
  size : a.size = 1
  inside : h < a.count
  expression : a.expression h = .derivative (.leaf 0) 1

theorem IsRate.diffOrder {a : Arena} {h : Nat} (is : IsRate a h) :
    (a.info h).diffOrder = [1] := by
  have order : (a.tree h).diffOrder 0 = 1 := by
    rw [← Tree.diffOrder_keyed, ← Arena.expression, is.expression]
    rfl
  rw [Arena.diffOrder_info is.wellFormed is.inside, is.size]
  simp [order]

variable {posed : Posed} {v : Value}

/-! ## Tracing -/

theorem exists_unit : ∃ d, Domain.create [(0 : Float), 1] = .ok d ∧ d.union d = .ok d := by
  have valid : (Domain.create [(0 : Float), 1]).isOk = true := by decide +kernel
  cases created : Domain.create [(0 : Float), 1] with
  | ok d => exact ⟨d, rfl, Doubles.ranked.union_self d⟩
  | error e =>
    rw [created] at valid
    cases valid

/-- In any workspace tracing gives the expression `u'`. -/
theorem trace_climb (poses : IsClimb posed v) {w : Workspace} (wf : w.WellFormed) :
    Ends (trace posed.operators posed.domain posed.orders) w
      (fun p w' => w.Grows w' ∧ p.Stored w' ∧ p.names = ["u"] ∧
        ∃ e, p.equations = [e] ∧ IsRate (w'.arena p.arena) e.handle ∧
          Domain.create [(0 : Float), 1] = .ok e.domain ∧ e.domain.union e.domain = .ok e.domain)
      fun _ _ => False := by
  obtain ⟨op, operators, parameters, apply⟩ := poses.operators
  obtain ⟨d, created, union⟩ := exists_unit
  have names : unknownNames op none = .ok ["u"] := by
    unfold unknownNames
    rw [parameters]
  rw [operators, poses.domain, poses.orders]
  unfold trace
  apply Ends.bind
  apply Ends.ofExcept
  rw [names]
  show Ends _ w _ _
  apply Ends.bind
  rw [created]
  show Ends _ w _ _
  apply Ends.bind
  apply (Placeholders.create_ends wf (Int.le_refl 1) d).weaken
  rintro p w₁ ⟨grown₁, are, place, size⟩
  -- there is a single unknown, and the operator derives it
  obtain ⟨u, unknowns, is, together⟩ : ∃ u, p.unknowns = [u] ∧ u.Is (.leaf 0) d w₁ ∧
      u.arena = p.time.arena := by
    have known := are.unknowns
    generalize p.unknowns = us at known
    cases known with
    | cons first rest =>
      cases rest
      exact ⟨_, rfl, first⟩
  refine Ends.bind (Ends.bind (Ends.bind ?_))
  rw [unknowns, apply]
  apply Ends.map
  apply (Traced.diff_ends grown₁.after is 1).weaken
  rintro e w₂ ⟨grown₂, rate, place'⟩
  -- the derivative is in the arena of the problem already
  have same : e.arena = p.time.arena := place'.trans together
  refine Ends.bind (Ends.bind ?_)
  show Ends (if e.arena = p.time.arena then pure e else _) w₂ _ _
  rw [if_pos same]
  refine Ends.pure (Ends.bind (Ends.pure (Ends.pure ?_)))
  refine Ends.pure (Ends.pure ?_)
  obtain ⟨tree, domain⟩ := rate.fits
  have arena : p.time.arena < w₂.arenas.size := same ▸ rate.arena
  refine ⟨grown₁.trans grown₂, ⟨arena, ?_, ?_⟩, rfl, e, rfl, ⟨grown₂.after _, ?_, ?_, ?_⟩, ?_, ?_⟩
  · intro e' he
    obtain rfl := List.mem_singleton.mp he
    exact ⟨rate.toRecords, same⟩
  · intro u' hu
    have known : u' ∈ [u] := hu
    obtain rfl := List.mem_singleton.mp known
    exact ⟨(is.grow grown₂).toRecords, together⟩
  · rw [(grown₂.arena _ (together ▸ is.arena)).size, place, size]
    rfl
  · exact same ▸ rate.inside
  · exact same ▸ tree
  · exact congrArg Except.ok domain.symm
  · exact domain.symm ▸ union

/-! ## Splitting -/

/-- The registry of a single unknown of first order. -/
def single : Registry := ⟨[1], ["u"], by decide⟩

theorem assign_single {a : Arena} {h : Nat} (is : IsRate a h) :
    a.assignEquations [h] single = .ok [0] := by
  have candidates : Assignment.candidates a [h] single 0 = [0] := by
    simp [Assignment.candidates, single, is.diffOrder]
  have matched : Matching.complete (Assignment.candidates a [h] single) single.size =
      .ok ⟨[(0, 0)]⟩ := by
    show Matching.complete (Assignment.candidates a [h] single) 1 = _
    simp only [Matching.complete, List.range_one, List.foldlM_cons, List.foldlM_nil,
      Matching.extend, candidates]
    rw [Matching.search.eq_def]
    rfl
  have inside : ∀ root ∈ [h], root < a.count := by simpa using is.inside
  have size : single.size ≤ a.size := Nat.le_of_eq is.size.symm
  rw [Arena.assignEquations_eq rfl (by decide) inside size, matched]
  rfl

/-- The tree of `u'` can be split. -/
theorem splittable_rate {a : Arena} {h : Nat} (is : IsRate a h) (d : Domain Float) :
    Splittable a none {} ["u"] d [.derivative (.leaf 0) 1] [.derivative (.leaf 0) 1] single [0] := by
  have orders : Tree.tracedOrders a.size [.derivative (.leaf 0) 1] = [1] := by
    rw [is.size]
    decide
  have accepts := LeadingCoefficient.accepts_one is.wellFormed d {} 0 1
  refine ⟨.cons ⟨by decide +kernel, by decide⟩ .nil, ?_, ?_, ?_, ?_⟩
  · rw [orders]
    rfl
  · rw [orders]
    rfl
  · refine ⟨a, [h], is.wellFormed, rfl, by simpa using is.inside, ?_, assign_single is⟩
    rw [List.map_singleton, is.expression, List.map_singleton]
  · intro entry listed
    obtain rfl : entry = ((1 : Int), 0) := List.mem_singleton.mp listed
    exact ⟨0, _, (Tree.one, none), none, rfl, rfl, by decide +kernel, accepts, rfl⟩

/-- What the first-order form of `u' = v` consists of. -/
structure Climbs (s : SplitSystem) (a : Arena) : Prop where
  equations : ∃ h v, s.equations = [h] ∧ a.node? h = some (.constant v)
  coefficients : ∃ c, s.coefficients = [c] ∧
    a.expression c.handle = .constant (.number (.ofFloat 1))

/-- They are what `u'` gives with a constant on the right. -/
theorem climbs_of_from {base a : Arena} {d : Domain Float} {s : SplitSystem}
    (registry : s.registry = single) (assignment : s.assignment = [0])
    (known : s.From base {} d [.derivative (.leaf 0) 1] (some (.constant v.key)) a) :
    Climbs s a := by
  obtain ⟨-, parts, equations, coefficients, derived⟩ := known
  have entries : s.registry.orders.zipIdx = [((1 : Int), 0)] := by rw [registry]; rfl
  rw [entries] at derived
  cases derived with
  | @cons _ q _ _ first rest =>
  cases rest
  obtain ⟨e, t, target, x, rest, given, tree, rfl, solvable, solved⟩ := first
  rw [assignment] at given
  cases given
  cases tree
  -- the coefficient is one and there is no rest, so the equation is the right-hand side
  obtain rfl := Tree.lead_jet solvable.lead
  obtain rfl : none = rest := Option.some.inj solvable.substituted
  obtain ⟨b, g, -, -, inside, one, created⟩ := solved.made
  obtain ⟨-, constant⟩ := (LeadingCoefficient.create_one inside one).of_ok created
  have trees := solved.equations
  rw [constant] at trees
  obtain ⟨h, same, tree⟩ := List.map_eq_singleton_iff.mp trees
  obtain ⟨i, stored, -⟩ :=
    Arena.exists_constant (solved.inside h (same ▸ List.mem_singleton_self h)) tree
  refine ⟨⟨h, i, ?_, stored⟩, q.2, by simpa using coefficients, ?_⟩
  · simpa [same] using equations
  · cases solved.handle with
    | some known => exact known.2

theorem splitEquations_climb (poses : IsClimb posed v) {w : Workspace} (wf : w.WellFormed)
    {p : TracedProblem} (stored : p.Stored w) (names : p.names = ["u"]) {e : Traced}
    (equations : p.equations = [e]) (is : IsRate (w.arena p.arena) e.handle) (d : Domain Float) :
    Ends (splitEquations p d posed) w
      (fun s w' => w.Grows w' ∧ Climbs s (w'.arena p.arena)) fun _ _ => False := by
  obtain ⟨o, rhs, value⟩ := poses.rhs
  have trees : p.trees w = [.derivative (.leaf 0) 1] := by
    rw [TracedProblem.trees, equations, List.map_singleton, is.expression]
  have reads : Target w p.arena o (some (.constant v.key)) := by
    intro w' _
    rw [Ends, value]
    exact ⟨rfl, Split.provides_value _ v⟩
  have form : (Tree.derivative (.leaf 0) 1).normalForm = some (.derivative (.leaf 0) 1) := by
    decide +kernel
  have settled : ∀ t ∈ [Tree.derivative (.leaf 0) 1], ∀ n, t.normalForm = some n →
      ∀ var order x, 0 < order → n.lead var order = some x →
        ∀ k ∈ x.1.values, (w.arena p.arena).Settles k := by
    intro t ht n normal var order x _ lead k hk
    obtain rfl := List.mem_singleton.mp ht
    obtain rfl := Option.some.inj (form.symm.trans normal)
    rw [Tree.lead_jet lead] at hk
    exact Or.inl (List.mem_singleton.mp hk)
  have splittable := splittable_rate is d
  apply (splitEquations_exact wf stored (Arena.Extends.refl _) trees settled d rhs reads).mono
  · rintro s w' ⟨grown, ns, splits, known⟩
    rw [poses.orders, poses.options, names] at splits
    obtain ⟨rfl, registry, assignment⟩ := splits.unique splittable
    rw [poses.options] at known
    exact ⟨grown, climbs_of_from registry assignment known⟩
  · intro _ _ refused
    rw [poses.orders, poses.options, names] at refused
    exact refused _ _ _ splittable

/-! ## Reduction -/

theorem reduce_climb (poses : IsClimb posed v) {w : Workspace} (wf : w.WellFormed) :
    Ends (reduce posed) w (fun s w' => Climbs s.system (w'.arena s.arena) ∧
      Domain.create [(0 : Float), 1] = .ok s.domain) fun _ _ => False := by
  unfold reduce
  rw [poses.left, poses.right]
  apply Ends.bind
  apply (trace_climb poses wf).weaken
  rintro p w₁ ⟨grown, stored, names, e, equations, is, created, union⟩
  apply Ends.bind
  rw [poses.domain, created]
  show Ends _ w₁ _ _
  apply Ends.bind
  rw [equations, joinDomains, List.foldlM_cons, union]
  apply Ends.bind
  show Ends _ w₁ _ _
  apply Ends.bind
  apply (splitEquations_climb poses grown.after stored names equations is e.domain).weaken
  rintro s w₂ ⟨-, climbs⟩
  -- the right-hand side is a single number, which always flattens
  have field : Ended (fieldOf (w₂.arena p.arena) s.equations) (fun _ => True) fun _ => False := by
    obtain ⟨h, v, equation, stored⟩ := climbs.equations
    unfold fieldOf
    rw [equation, Program.ofTrees_constant stored]
    exact trivial
  refine Ends.bind (Ends.get (Ends.bind (Ends.ofExcept ?_)))
  apply field.mono ?_ fun _ => id
  intro field _
  unfold conditionEnd
  rw [poses.left, poses.right]
  exact ⟨climbs, rfl⟩

theorem Climbs.regular {s : SplitSystem} {a : Arena} (climbs : Climbs s a) :
    s.Regular Interpretation.rational a := by
  obtain ⟨c, coefficients, one⟩ := climbs.coefficients
  intro c' hc
  rw [coefficients] at hc
  obtain rfl := List.mem_singleton.mp hc
  have value : a.denote (Interpretation.rational.onState fun _ => 0) c'.handle = 1 := by
    rw [← Arena.denote_expression Interpretation.rational.value_key, one]
    exact Interpretation.rational.number_one
  rw [value]
  exact one_ne_zero

end FirstOrder

end JetForm
