import JetForm.Proofs.Program.Reading
import JetForm.Proofs.Reduction.Lowerable
import JetForm.Proofs.Reduction.Subtraction

/-! # Moving a right-hand side to the left

    For an expression `r` of the time the equations `L(u) = r` can be reduced
    exactly if `L(u) - r = 0` can, and the two first-order systems agree.

    This is so only if `r` has no derivatives.  A right-hand side is copied as it
    is, and its derivatives are still there when the equations are made a program;
    on the left they are resolved with those of the unknowns.  Nor are the
    breakpoints of a right-hand side added to the domain. -/

namespace JetForm

/-! ## When an expression can be moved -/

/-- The zeros in the leading coefficients of the tree are among the constants of
    the arena.  Zeros of both signs are one constant, and the first of them stays:
    a zero that comes with the right-hand side would decide the sign of a zero
    that comes with a derivative. -/
def Arena.HoldsZeros (a : Arena) (t : Tree) : Prop :=
  ∀ n, t.normalForm = some n → ∀ var order x, 0 < order → n.lead var order = some x →
    Value.number (.ofFloat 0) ∈ x.1.values → a.Settles (.number (.ofFloat 0))

/-- An expression that can be moved: it reads nothing but the time, it has no
    derivatives, and it brings in no breakpoints. -/
structure Posed.Transposable (posed : Posed) (w : Workspace) (r : Traced) : Prop where
  stored : r.Stored w
  plain : ((w.arena r.arena).expression r.handle).lowered 0 = true
  size : ∀ p w', FirstOrder.trace posed.operators posed.domain posed.orders w = .ok p w' →
    (w.arena r.arena).size = p.names.length
  domain : ∀ p w', FirstOrder.trace posed.operators posed.domain posed.orders w = .ok p w' →
    ∀ e ∈ p.equations, e.domain.union r.domain = .ok e.domain
  zeros : ∀ p w', FirstOrder.trace posed.operators posed.domain posed.orders w = .ok p w' →
    ∀ e ∈ p.equations, (w'.arena p.arena).HoldsZeros ((w'.arena p.arena).expression e.handle)

/-- Both systems have the same slots and alike leading coefficients, and over exact
    arithmetic their fields have the same values. -/
structure FirstOrderSystem.Agrees (a : Arena) (s : FirstOrderSystem) (b : Arena)
    (s' : FirstOrderSystem) : Prop where
  registry : s.system.registry = s'.system.registry
  slots : s.system.slots = s'.system.slots
  assignment : s.system.assignment = s'.system.assignment
  coefficients : List.Forall₂ (LeadingCoefficient.Agrees a b) s.system.coefficients
    s'.system.coefficients
  size : s.field.size = s'.field.size
  field : ∀ {K : Type} [AddGroup K] (value : Value → K → K) (unary : UnaryOp → K → K)
    (binary : BinaryOp → K → K → K), (∀ v, value v.key = value v) →
    (∀ x, unary .uminus x = -x) → (∀ x y, binary .minus x y = x - y) →
    ∀ t x x', x.toList = x'.toList → (s.field.eval (.exact value unary binary) t x).toList =
      (s'.field.eval (.exact value unary binary) t x').toList

/-- The constants of leading coefficients are settled by the traced equations. -/
theorem Arena.HoldsZeros.settled {a : Arena} (wf : a.WellFormed) {h : Nat} (inside : h < a.count)
    (holds : a.HoldsZeros (a.expression h)) {n : Tree} (normal : (a.expression h).normalForm = some n)
    {var order : Nat} (positive : 0 < order) {x : Tree × Option Tree}
    (lead : n.lead var order = some x) : ∀ k ∈ x.1.values, a.Settles k := by
  have stored : ∀ k ∈ (a.expression h).values, a.Settles k ∨ k = .number (.ofFloat 0) := by
    intro k hk
    rw [expression, Tree.values_keyed] at hk
    obtain ⟨v, hv, rfl⟩ := List.mem_map.mp hk
    obtain ⟨i, hi, rfl⟩ := stored_of_values wf inside v hv
    exact Or.inl (Or.inr ⟨i, hi, rfl⟩)
  have one : a.Settles (.number (.ofFloat 1)) ∨
      (.number (.ofFloat 1) : Value) = .number (.ofFloat 0) := Or.inl (Or.inl rfl)
  have known := Tree.values_normalForm normal (Or.inr rfl) one stored
  have listed := ((Tree.hereditary_values one).lead known lead).1
  intro k hk
  rcases listed k hk with settles | rfl
  · exact settles
  · exact holds n normal var order x positive lead hk

namespace FirstOrder

variable {w : Workspace} {i : Nat}

/-! ## What stands on the right -/

/-- The number zero is no right-hand side. -/
theorem target_zero : Target w i (.number (.int 0)) none :=
  fun w' _ => ⟨rfl, Split.provides_zero (w'.arena i)⟩

/-- An expression of another arena is the right-hand side itself. -/
theorem target_traced (inside : i < w.arenas.size) {r : Traced} (stored : r.Stored w)
    (apart : r.arena ≠ i) (size : (w.arena r.arena).size = (w.arena i).size)
    (plain : ((w.arena r.arena).expression r.handle).lowered 0 = true) :
    Target w i (.traced r) (some ((w.arena r.arena).expression r.handle)) := by
  intro w' grown
  have same := grown.expression stored.arena stored.inside
  have from_r := grown.arena r.arena stored.arena
  have sizes : (w'.arena r.arena).size = (w'.arena i).size := by
    rw [from_r.size, size, (grown.arena i inside).size]
  unfold rightHandSide
  apply Ends.bind
  apply Ends.get
  rw [if_neg apart]
  refine Ends.pure ⟨rfl, ?_⟩
  rw [← same] at plain ⊢
  exact Split.provides_tree (grown.after r.arena) sizes (from_r.lt_count stored.inside) plain

/-! ## The two splits -/

/-- The equations of a traced problem, with an expression subtracted from them. -/
structure Subtracts (posed : Posed) (r : Traced) (w : Workspace) (p : TracedProblem)
    (w₁ : Workspace) (es : List Traced) (w₂ : Workspace) : Prop where
  before : w.Grows w₁
  stored : p.Stored w₁
  apart : r.arena ≠ p.arena
  size : (w₁.arena r.arena).size = (w₁.arena p.arena).size
  after : w₁.Grows w₂
  differences : ({ p with equations := es } : TracedProblem).Stored w₂
  domains : es.map Traced.domain = p.equations.map Traced.domain
  trees : ({ p with equations := es } : TracedProblem).trees w₂ =
    (p.trees w₁).map (·.less ((w.arena r.arena).expression r.handle))
  traced : trace posed.operators posed.domain posed.orders w = .ok p w₁
  less : trace (posed.less r).operators posed.domain posed.orders w =
    .ok { p with equations := es } w₂

variable {posed : Posed} {r : Traced}

/-- If the equations can be traced, so can the differences. -/
theorem exists_subtracts (lawful : posed.Lawful) (wf : w.WellFormed)
    (movable : posed.Transposable w r) {p : TracedProblem} {w₁ : Workspace}
    (traced : trace posed.operators posed.domain posed.orders w = .ok p w₁) :
    ∃ es w₂, Subtracts posed r w p w₁ es w₂ := by
  obtain ⟨grown, stored⟩ :=
    (trace_runs lawful.operators posed.domain posed.orders).of_ok wf traced
  obtain ⟨-, place, size⟩ :=
    (trace_place lawful.operators posed.domain posed.orders).of_ok wf traced
  have right := movable.stored
  have apart : r.arena ≠ p.arena := place ▸ Nat.ne_of_lt right.arena
  have same := grown.expression right.arena right.inside
  rw [← movable.size p w₁ traced, ← (grown.arena _ right.arena).size] at size
  obtain ⟨es, w₂, run, grown', known, domains, trees⟩ := (less_equations grown.after stored
    (right.grow grown) apart.symm size.symm (same.symm ▸ movable.plain)
    (movable.domain p w₁ traced)).exists_ok
  refine ⟨es, w₂, grown, stored, apart, size.symm, grown', ?_, domains, ?_, traced, ?_⟩
  · exact ⟨(stored.grow grown').arena, known, (stored.grow grown').unknowns⟩
  · rw [same] at trees
    rw [TracedProblem.trees, trees, TracedProblem.trees, List.map_map]
    rfl
  · show trace (lessOperators posed.operators r) _ _ w = _
    rw [trace_less, run_bind traced, run_bind run,
      run_bind (expressions_traced (fun e he => (known e he).2) w₂)]
    rfl

/-- If the differences can be traced, so can the equations. -/
theorem trace_of_less {p : TracedProblem} {w₁ : Workspace}
    (traced : trace (posed.less r).operators posed.domain posed.orders w = .ok p w₁) :
    ∃ p w₁, trace posed.operators posed.domain posed.orders w = .ok p w₁ := by
  change trace (lessOperators posed.operators r) _ _ w = _ at traced
  rw [trace_less] at traced
  obtain ⟨p', w₂, run, -⟩ := Tracing.bind_eq_ok.mp traced
  exact ⟨p', w₂, run⟩

variable {p : TracedProblem} {w₁ w₂ : Workspace} {es : List Traced}

/-- The constants of leading coefficients are settled by the traced equations. -/
theorem Subtracts.settled (subtracts : Subtracts posed r w p w₁ es w₂)
    (movable : posed.Transposable w r) :
    ∀ t ∈ p.trees w₁, ∀ n, t.normalForm = some n → ∀ var order x, 0 < order →
      n.lead var order = some x → ∀ k ∈ x.1.values, (w₁.arena p.arena).Settles k := by
  intro t ht n normal var order x positive lead
  obtain ⟨e, he, rfl⟩ := List.mem_map.mp ht
  obtain ⟨known, place⟩ := subtracts.stored.equations e he
  exact (movable.zeros p w₁ subtracts.traced e he).settled (subtracts.before.after p.arena)
    (place ▸ known.inside) normal positive lead

/-- Splitting the equations for the right-hand side is exact. -/
theorem Subtracts.equals_exact (subtracts : Subtracts posed r w p w₁ es w₂)
    (movable : posed.Transposable w r) (domain : Domain Float) :
    Ends (splitEquations p domain (posed.equals r)) w₁
      (fun s w' => w₁.Grows w' ∧ s.Splits (w₁.arena p.arena) posed p.names domain (p.trees w₁)
        (some ((w.arena r.arena).expression r.handle)) (w'.arena p.arena))
      fun _ _ => ∀ ns registry assignment,
        ¬ Splittable (w₁.arena p.arena) posed.orders posed.options p.names domain (p.trees w₁) ns
          registry assignment := by
  have right := movable.stored
  have same := subtracts.before.expression right.arena right.inside
  have reads := target_traced subtracts.stored.arena (right.grow subtracts.before)
    subtracts.apart subtracts.size (same.symm ▸ movable.plain)
  rw [same] at reads
  exact splitEquations_exact subtracts.before.after subtracts.stored (.refl _) rfl
    (subtracts.settled movable) domain rfl reads

/-- Splitting the differences is exact. -/
theorem Subtracts.less_exact (subtracts : Subtracts posed r w p w₁ es w₂)
    (movable : posed.Transposable w r) (domain : Domain Float) :
    Ends (splitEquations { p with equations := es } domain (posed.less r)) w₂
      (fun s w' => w₂.Grows w' ∧ s.Splits (w₁.arena p.arena) posed p.names domain
        ((p.trees w₁).map (·.less ((w.arena r.arena).expression r.handle))) none (w'.arena p.arena))
      fun _ _ => ∀ ns registry assignment,
        ¬ Splittable (w₁.arena p.arena) posed.orders posed.options p.names domain
          ((p.trees w₁).map (·.less ((w.arena r.arena).expression r.handle))) ns registry
          assignment := by
  refine splitEquations_exact subtracts.after.after subtracts.differences
    (subtracts.after.arena _ subtracts.stored.arena) subtracts.trees ?_ domain rfl target_zero
  intro t ht n normal var order x positive lead
  obtain ⟨t', ht', rfl⟩ := List.mem_map.mp ht
  rw [Tree.normalForm_less movable.plain] at normal
  obtain ⟨n', normal', rfl⟩ := Option.map_eq_some_iff.mp normal
  rw [Tree.lead_less movable.plain positive] at lead
  obtain ⟨x', lead', rfl⟩ := Option.map_eq_some_iff.mp lead
  exact subtracts.settled movable t' ht' n' normal' var order x' positive lead'

/-- Both can be split, or neither. -/
theorem Subtracts.splits_iff (subtracts : Subtracts posed r w p w₁ es w₂)
    (movable : posed.Transposable w r) (domain : Domain Float) :
    (∃ s w', splitEquations p domain (posed.equals r) w₁ = .ok s w') ↔
      ∃ s w', splitEquations { p with equations := es } domain (posed.less r) w₂ = .ok s w' := by
  rw [exists_split_iff (subtracts.equals_exact movable domain),
    exists_split_iff (subtracts.less_exact movable domain)]
  constructor
  · rintro ⟨ns, registry, assignment, splittable⟩
    exact ⟨_, registry, assignment, (splittable_less movable.plain).mpr ⟨ns, rfl, splittable⟩⟩
  · rintro ⟨_, registry, assignment, splittable⟩
    obtain ⟨ns, -, splittable'⟩ := (splittable_less movable.plain).mp splittable
    exact ⟨ns, registry, assignment, splittable'⟩

end FirstOrder

/-! ## The two systems -/

/-- Systems that are split from the same equations, whose trees agree. -/
structure SplitSystem.Agrees (a : Arena) (s : SplitSystem) (b : Arena) (s' : SplitSystem) :
    Prop where
  registry : s.registry = s'.registry
  slots : s.slots = s'.slots
  assignment : s.assignment = s'.assignment
  equations : List.Forall₂ (fun h g => (a.expression h).Agrees (b.expression g)) s.equations
    s'.equations
  coefficients : List.Forall₂ (LeadingCoefficient.Agrees a b) s.coefficients s'.coefficients

/-- What is split for a right-hand side agrees with what is split without it. -/
theorem SplitSystem.Splits.agrees {base a b : Arena} {posed : Posed} {names : List String}
    {domain : Domain Float} {ts : List Tree} {R : Tree} {s s' : SplitSystem}
    (low : R.lowered 0 = true)
    (settled : ∀ t ∈ ts, ∀ n, t.normalForm = some n → ∀ var order x, 0 < order →
      n.lead var order = some x → ∀ k ∈ x.1.values, base.Settles k)
    (here : s.Splits base posed names domain ts (some R) a)
    (there : s'.Splits base posed names domain (ts.map (·.less R)) none b) :
    SplitSystem.Agrees a s b s' := by
  obtain ⟨ns, splittable, from_here⟩ := here
  obtain ⟨_, splittable', from_there⟩ := there
  obtain ⟨ms, rfl, splittable''⟩ := (FirstOrder.splittable_less low).mp splittable'
  obtain ⟨rfl, registry, assignment⟩ := splittable.unique splittable''
  have known : ∀ n ∈ ns, ∀ var order x, 0 < order → n.lead var order = some x →
      ∀ k ∈ x.1.values, base.Settles k := by
    intro n hn
    obtain ⟨t, given, normal, -⟩ := exists_mem_of_forall₂_right splittable.normal hn
    exact settled t given n normal
  obtain ⟨equations, coefficients⟩ := from_here.agrees low known splittable.assigned.positive
    registry assignment from_there
  exact ⟨registry, by rw [from_here.slots, from_there.slots, registry], assignment, equations,
    coefficients⟩

section Fields

variable {a b : Arena} {s s' : SplitSystem}

/-- If one of two systems that agree can be lowered, the other has a field. -/
theorem SplitSystem.Agrees.exists_field (agrees : SplitSystem.Agrees a s b s')
    (inside : ∀ h ∈ s.equations, h < a.count) (lowered : s'.Lowered b) :
    ∃ f, FirstOrder.fieldOf a s.equations = .ok f := by
  have low : ∀ h ∈ s.equations, (a.expression h).lowered s.equations.length = true := by
    intro h hh
    obtain ⟨g, given, same⟩ := exists_mem_of_forall₂_left agrees.equations hh
    rw [agrees.equations.length_eq, lowered.length]
    exact same.lowered _ (lowered.equations g given).2
  obtain ⟨f, made, -⟩ := VectorField.exists_of_lowered rfl inside low
  exact ⟨f, made⟩

/-- Systems that agree have fields of the same values. -/
theorem SplitSystem.Agrees.field (agrees : SplitSystem.Agrees a s b s')
    (inside : ∀ h ∈ s.equations, h < a.count) (inside' : ∀ h ∈ s'.equations, h < b.count)
    {f f' : VectorField} (made : FirstOrder.fieldOf a s.equations = .ok f)
    (made' : FirstOrder.fieldOf b s'.equations = .ok f') {K : Type} [AddGroup K]
    {value : Value → K → K} {unary : UnaryOp → K → K} {binary : BinaryOp → K → K → K}
    (key : ∀ v, value v.key = value v) (sign : ∀ x, unary .uminus x = -x)
    (difference : ∀ x y, binary .minus x y = x - y) (t : K) (x : Vector K f.size)
    (x' : Vector K f'.size) (same : x.toList = x'.toList) :
    (f.eval (.exact value unary binary) t x).toList =
      (f'.eval (.exact value unary binary) t x').toList := by
  rw [VectorField.toList_eval inside made, VectorField.toList_eval inside' made', same]
  let m : Meaning K := ((Evaluation.exact value unary binary).meaning t fun s =>
    x'.toList[s.toNat]?.getD t).readingSlots Program.ownSlot
  have values : ∀ v, m.value v.key = m.value v := fun v => congrFun (key v) t
  have pairs : List.Forall₂ (· = ·) (s.equations.map (a.denote m)) (s'.equations.map (b.denote m)) := by
    rw [List.forall₂_map_left_iff, List.forall₂_map_right_iff]
    apply agrees.equations.imp
    intro h g known
    rw [← Arena.denote_expression values h, ← Arena.denote_expression values g]
    exact known.denote m sign difference
  rw [List.forall₂_eq_eq_eq] at pairs
  exact pairs

end Fields

namespace FirstOrder

variable {posed : Posed} {r : Traced} {w w₁ w₂ w' : Workspace} {p : TracedProblem} {es : List Traced}

/-! ## All stages -/

/-- The differences are split into a system that can be lowered. -/
theorem Subtracts.lowered (subtracts : Subtracts posed r w p w₁ es w₂) {domain : Domain Float}
    {s : SplitSystem} (split : splitEquations { p with equations := es } domain (posed.less r) w₂ =
      .ok s w') : s.Lowered (w'.arena p.arena) := by
  have untraced : (posed.less r).rhs.Untraced := fun _ => nofun
  exact ((splitEquations_lowered subtracts.after.after subtracts.differences domain
    untraced).of_ok split).2.2

/-- What is split on both sides agrees, and its equations are stored. -/
theorem Subtracts.agrees (subtracts : Subtracts posed r w p w₁ es w₂)
    (movable : posed.Transposable w r) {domain : Domain Float} {s s' : SplitSystem} {v v' : Workspace}
    (equals : splitEquations p domain (posed.equals r) w₁ = .ok s v)
    (less : splitEquations { p with equations := es } domain (posed.less r) w₂ = .ok s' v') :
    SplitSystem.Agrees (v.arena p.arena) s (v'.arena p.arena) s' ∧
      (∀ h ∈ s.equations, h < (v.arena p.arena).count) ∧
      ∀ h ∈ s'.equations, h < (v'.arena p.arena).count := by
  obtain ⟨-, here⟩ := (subtracts.equals_exact movable domain).of_ok equals
  obtain ⟨-, there⟩ := (subtracts.less_exact movable domain).of_ok less
  refine ⟨here.agrees movable.plain (subtracts.settled movable) there, ?_, ?_⟩
  · obtain ⟨ns, -, stems⟩ := here
    exact stems.inside
  · obtain ⟨ns, -, stems⟩ := there
    exact stems.inside

/-- A field has as many components as there are equations. -/
theorem size_of_fieldOf {a : Arena} {equations : List Nat} {f : VectorField}
    (made : fieldOf a equations = .ok f) : f.size = equations.length :=
  VectorField.size_of_trees made

/-- If the equations can be split for the right-hand side, the differences are
    reduced. -/
theorem Subtracts.exists_reduce (subtracts : Subtracts posed r w p w₁ es w₂)
    (movable : posed.Transposable w r) (left : posed.left = none) (right : posed.right = none)
    {given domain : Domain Float} (created : Domain.create posed.domain = .ok given)
    (joined : (p.equations.map Traced.domain).foldlM Domain.union given = .ok domain)
    (split : ∃ s w', splitEquations p domain (posed.equals r) w₁ = .ok s w') :
    ∃ s w', reduce (posed.less r) w = .ok s w' := by
  obtain ⟨s, v, split'⟩ := (subtracts.splits_iff movable domain).mp split
  obtain ⟨f, made, -⟩ := (lowerable_of_lowered (subtracts.lowered split')).field
  rw [← subtracts.domains] at joined
  exact ⟨⟨p.arena, f, domain, none, s, none, 0⟩, v, (@reduce_eq_ok (posed.less r) left right _ _
    _).mpr ⟨_, w₂, given, subtracts.less, created, joined, split', made, rfl⟩⟩

/-- What is reduced with the right-hand side is reduced without it. -/
theorem exists_reduce_less (lawful : posed.Lawful) (left : posed.left = none)
    (right : posed.right = none) (wf : w.WellFormed) (movable : posed.Transposable w r)
    {s : FirstOrderSystem} (run : reduce (posed.equals r) w = .ok s w') :
    ∃ s' v, reduce (posed.less r) w = .ok s' v := by
  obtain ⟨p, w₁, given, traced, created, joined, split, -, -⟩ :=
    (@reduce_eq_ok (posed.equals r) left right _ _ _).mp run
  obtain ⟨es, w₂, subtracts⟩ := exists_subtracts lawful wf movable traced
  exact subtracts.exists_reduce movable left right created joined ⟨_, _, split⟩

/-- What is reduced without the right-hand side is reduced with it. -/
theorem exists_reduce_equals (lawful : posed.Lawful) (left : posed.left = none)
    (right : posed.right = none) (wf : w.WellFormed) (movable : posed.Transposable w r)
    {s : FirstOrderSystem} (run : reduce (posed.less r) w = .ok s w') :
    ∃ s' v, reduce (posed.equals r) w = .ok s' v := by
  obtain ⟨p', w₂, given, less, created, joined, split', -, -⟩ :=
    (@reduce_eq_ok (posed.less r) left right _ _ _).mp run
  obtain ⟨p, w₁, traced⟩ := trace_of_less less
  obtain ⟨es, _, subtracts⟩ := exists_subtracts lawful wf movable traced
  cases less.symm.trans subtracts.less
  obtain ⟨s', v, split⟩ := (subtracts.splits_iff movable s.domain).mpr ⟨_, _, split'⟩
  obtain ⟨agrees, inside, -⟩ := subtracts.agrees movable split split'
  obtain ⟨f, made⟩ := agrees.exists_field inside (subtracts.lowered split')
  rw [subtracts.domains] at joined
  exact ⟨⟨p.arena, f, s.domain, none, s', none, 0⟩, v, (@reduce_eq_ok (posed.equals r) left right _ _
    _).mpr ⟨p, w₁, given, traced, created, joined, split, made, rfl⟩⟩

/-- What is reduced on both sides agrees. -/
theorem reduce_agrees (lawful : posed.Lawful) (left : posed.left = none)
    (right : posed.right = none) (wf : w.WellFormed) (movable : posed.Transposable w r)
    {s s' : FirstOrderSystem} {v v' : Workspace} (run : reduce (posed.equals r) w = .ok s v)
    (run' : reduce (posed.less r) w = .ok s' v') :
    FirstOrderSystem.Agrees (v.arena s.arena) s (v'.arena s'.arena) s' := by
  obtain ⟨p, w₁, given, traced, created, joined, split, made, same⟩ :=
    (@reduce_eq_ok (posed.equals r) left right _ _ _).mp run
  obtain ⟨p', w₂, given', less, created', joined', split', made', same'⟩ :=
    (@reduce_eq_ok (posed.less r) left right _ _ _).mp run'
  obtain ⟨es, _, subtracts⟩ := exists_subtracts lawful wf movable traced
  cases less.symm.trans subtracts.less
  cases created.symm.trans created'
  rw [← subtracts.domains] at joined
  rw [← Except.ok.inj (joined.symm.trans joined')] at split'
  obtain ⟨agrees, inside, inside'⟩ := subtracts.agrees movable split split'
  have place : s.arena = p.arena := congrArg FirstOrderSystem.arena same
  have place' : s'.arena = p.arena := congrArg FirstOrderSystem.arena same'
  rw [place, place']
  refine ⟨agrees.registry, agrees.slots, agrees.assignment, agrees.coefficients, ?_, ?_⟩
  · rw [size_of_fieldOf made, size_of_fieldOf made', agrees.equations.length_eq]
  · intro K _ value unary binary key sign difference t x x' known
    exact agrees.field inside inside' made made' key sign difference t x x' known

/-- **A right-hand side can be moved to the left.**  For an expression of the time
    without derivatives the equations `L(u) = r` are reduced if and only if
    `L(u) - r = 0` are, and then the two systems agree. -/
theorem reduce_transposed (lawful : posed.Lawful) (left : posed.left = none)
    (right : posed.right = none) (wf : w.WellFormed) (movable : posed.Transposable w r) :
    ((∃ s w', reduce (posed.equals r) w = .ok s w') ↔
      ∃ s w', reduce (posed.less r) w = .ok s w') ∧
    ∀ s v s' v', reduce (posed.equals r) w = .ok s v → reduce (posed.less r) w = .ok s' v' →
      FirstOrderSystem.Agrees (v.arena s.arena) s (v'.arena s'.arena) s' := by
  refine ⟨⟨?_, ?_⟩, ?_⟩
  · rintro ⟨s, w', run⟩
    exact exists_reduce_less lawful left right wf movable run
  · rintro ⟨s, w', run⟩
    exact exists_reduce_equals lawful left right wf movable run
  · intro s v s' v' run run'
    exact reduce_agrees lawful left right wf movable run run'

/-! ## The equation `u' = t` -/

/-- In a workspace of its own the time can be moved in `u' = t`. -/
theorem exists_time : ∃ (w : Workspace) (r : Traced), w.WellFormed ∧ climb.Transposable w r ∧
    ∃ s w', reduce (climb.less r) w = .ok s w' := by
  obtain ⟨d, created, union⟩ := exists_unit
  obtain ⟨h, a, -, made⟩ := (Arena.independent_makes (Arena.wellFormed_empty 1 0)).exists_ok
  let w : Workspace := Workspace.push default a
  let r : Traced := ⟨0, h, d, 0⟩
  have wf : w.WellFormed :=
    (Workspace.grows_push Workspace.wellFormed_default made.wellFormed).after
  have place : w.arena r.arena = a := Workspace.arena_push_self default a
  -- tracing the climb gives one equation, the rate of its one unknown, in every workspace
  have traced : ∀ p w', trace climb.operators climb.domain climb.orders w = .ok p w' →
      p.names = ["u"] ∧ ∃ e', p.equations = [e'] ∧ IsRate (w'.arena p.arena) e'.handle ∧
        e'.domain = d := by
    intro p w' run
    obtain ⟨-, -, names, e', equations, is, created', -⟩ := (trace_climb climb_isClimb wf).of_ok run
    exact ⟨names, e', equations, is, Except.ok.inj (created'.symm.trans created)⟩
  -- time has no unknown in it, so it can be moved past the rate
  have movable : climb.Transposable w r := by
    refine ⟨⟨?_, ?_, ?_⟩, ?_, ?_, ?_, ?_⟩
    · exact Nat.one_pos
    · rw [place]
      exact made.inside
    · rw [place, made.expression]
      rfl
    · rw [place, made.expression]
      rfl
    · intro p w' run
      rw [place, (traced p w' run).1, made.grown.size]
      rfl
    · intro p w' run e' he'
      obtain ⟨-, e'', equations, -, same⟩ := traced p w' run
      rw [equations] at he'
      obtain rfl := List.mem_singleton.mp he'
      rw [same]
      exact union
    · intro p w' run e' he' n normal var order x positive lead zero
      obtain ⟨-, e'', equations, is, -⟩ := traced p w' run
      rw [equations] at he'
      obtain rfl := List.mem_singleton.mp he'
      rw [is.expression] at normal
      have form : (Tree.derivative (.leaf 0) 1).normalForm = some (.derivative (.leaf 0) 1) := by
        decide +kernel
      obtain rfl := Option.some.inj (form.symm.trans normal)
      rw [Tree.lead_jet lead] at zero
      exact absurd (List.mem_singleton.mp zero) (by decide)
  refine ⟨w, r, wf, movable, ?_⟩
  obtain ⟨p, w₁, run, -, -, names, e', equations, is, created', union'⟩ :=
    (trace_climb climb_isClimb wf).exists_ok
  obtain ⟨es, w₂, subtracts⟩ := exists_subtracts climb_lawful wf movable run
  have trees : p.trees w₁ = [.derivative (.leaf 0) 1] := by
    rw [TracedProblem.trees, equations, List.map_singleton, is.expression]
  have splittable := splittable_rate is e'.domain
  rw [← trees, ← names] at splittable
  apply subtracts.exists_reduce movable rfl rfl created'
  · rw [equations, List.map_singleton, List.foldlM_cons, union']
    rfl
  · exact (exists_split_iff (subtracts.equals_exact movable e'.domain)).mpr
      ⟨_, _, _, splittable⟩

/-- The hypotheses can be met: in `u' = t` the time is moved to the left. -/
theorem reduce_transposed_time : ∃ (w : Workspace) (r : Traced), w.WellFormed ∧
    climb.Transposable w r ∧ (∃ s w', reduce (climb.less r) w = .ok s w') ∧
    ((∃ s w', reduce (climb.equals r) w = .ok s w') ↔
      ∃ s w', reduce (climb.less r) w = .ok s w') ∧
    ∀ s v s' v', reduce (climb.equals r) w = .ok s v → reduce (climb.less r) w = .ok s' v' →
      FirstOrderSystem.Agrees (v.arena s.arena) s (v'.arena s'.arena) s' := by
  obtain ⟨w, r, wf, movable, reduced⟩ := exists_time
  exact ⟨w, r, wf, movable, reduced, reduce_transposed climb_lawful rfl rfl wf movable⟩

end FirstOrder

end JetForm
