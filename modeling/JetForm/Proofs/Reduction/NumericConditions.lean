import JetForm.Proofs.Numerics.Doubles
import JetForm.Proofs.Reduction.LinearConditions
import JetForm.Proofs.Reduction.Lowerable
import JetForm.Proofs.Reduction.ValueConditions

/-! # The state that numbers fix

    The residual of numbers in place of conditions is the state minus these
    numbers.  Forward differences give its derivative, the identity, so that one
    iteration of Newton's method from zero leads to the numbers themselves.

    But the search looks at the tolerance first.  Numbers whose norm is within it
    are close enough to zero, and zero is what they become. -/

namespace JetForm

/-! ## Numbers as entries -/

namespace Number

variable {n : Number}

/-- The number can stand in an array. -/
def HasEntry (n : Number) : Prop :=
  ∃ x, n.toEntry = .ok x

/-- All numbers can, but for integers of more than 64 bits. -/
theorem hasEntry_iff : n.HasEntry ↔ ∀ k, n = .int k → fitsWord k = true := by
  unfold HasEntry
  cases n with
  | int k => by_cases fits : fitsWord k = true <;> simp [toEntry, fits]
  | bool | double | complex | wide => simp [toEntry]

theorem toEntry_key (n : Number) : n.key.toEntry = canonicalEntry <$> n.toEntry := by
  cases n with
  | int k => by_cases fits : fitsWord k = true <;> simp [key, toEntry, fits, canonicalEntry]
  | bool | double | complex | wide => rfl

theorem kind_canonicalEntry (x : Entry) : (canonicalEntry x).kind = x.kind := by
  cases x <;> rfl

end Number

namespace Value

/-- A double minus the value is a double again. -/
def Subtracts (v : Value) : Prop :=
  ∃ y z, (Cell.binary .single .minus (.entry (.real 0)) (.ofValue .single (.real 0) v)).toEntry
    .single = .ok y ∧ Entry.toReal y = .ok z

/-- For numbers this is so if they have entries, and these are not complex. -/
theorem subtracts_number_iff {n : Number} :
    (number n).Subtracts ↔ ∃ x, n.toEntry = .ok x ∧ x.kind ≠ .complex := by
  -- the number becomes an entry before it is subtracted
  have difference : Cell.binary .single .minus (.entry (.real 0))
      (.ofValue .single (.real 0) (number n)) =
      Cell.ofExcept (n.toEntry.bind (Entry.combine .minus (.real 0))) := by
    show Cell.ofExcept (((fun y x => Entry.combine .minus x y) <$> n.toEntry).bind
      fun f => f (.real 0)) = _
    cases n.toEntry <;> rfl
  unfold Subtracts
  rw [difference]
  cases n.toEntry with
  | error f => exact ⟨nofun, nofun⟩
  | ok x =>
    cases x with
    | complex z =>
      constructor
      · rintro ⟨_, _, ⟨⟩, ⟨⟩⟩
      · rintro ⟨_, ⟨⟩, other⟩
        exact absurd rfl other
    | truth | whole | real => exact ⟨fun _ => ⟨_, rfl, nofun⟩, fun _ => ⟨_, _, rfl, rfl⟩⟩

theorem subtracts_key (v : Value) : v.key.Subtracts = v.Subtracts := by
  cases v with
  | external f => rfl
  | number n =>
    show (number n.key).Subtracts = _
    rw [subtracts_number_iff, subtracts_number_iff, n.toEntry_key]
    cases n.toEntry with
    | error f => simp
    | ok x => simp [Number.kind_canonicalEntry]

/-- The entries of real numbers are not complex. -/
theorem subtracts_iff_hasEntry {n : Number} (real : n.isReal = true) :
    (number n).Subtracts ↔ n.HasEntry := by
  rw [subtracts_number_iff]
  constructor
  · rintro ⟨x, known, -⟩
    exact ⟨x, known⟩
  · rintro ⟨x, known⟩
    -- an entry is complex only if its number is
    refine ⟨x, known, fun complex => ?_⟩
    cases n with
    | int k =>
      rw [Number.toEntry] at known
      split at known <;> cases known
      cases complex
    | complex z => cases real
    | wide y origin =>
      cases known
      cases x with
      | complex z => cases real
      | truth | whole | real => cases complex
    | bool | double =>
      cases known
      cases complex

end Value

/-! ## The residual -/

namespace InitialState

variable {a b : Arena} {r : Registry} {ns : List Number} {hs : List Nat} {f : Value → Value}

/-- The form of a condition is the difference of its slot and its number. -/
theorem form_values (values : Conditions.AreValues a r ns hs) {s h : Nat}
    (listed : hs[s]? = some h) : ∃ (var order : Nat) (n : Number), ns[s]? = some n ∧
      form r f (a.expression h) =
        .treeValue .minus (.slot s var order) (f (Value.number n).key) := by
  obtain ⟨var, order, n, slot, number, -, same⟩ := values.exists_slot listed
  refine ⟨var, order, n, number, ?_⟩
  rw [form, same, Tree.substitute_valueCondition slot]
  rfl

section

variable (wf : a.WellFormed) {conditions : SortedConditions}
  (handles : conditions.conditions.map Condition.handle = hs)
  (values : Conditions.AreValues a r ns hs) {g : VectorField}
  (made : residualField conditions r r.slots a = .ok g b)
include wf handles values made

/-- The residual can be evaluated if there are numbers and all of them have entries. -/
theorem check_values (length : ns.length = r.slots.size) (real : ∀ n ∈ ns, n.isReal = true) :
    g.check [g.size] = .ok () ↔ ns ≠ [] ∧ ∀ n ∈ ns, n.HasEntry := by
  subst handles
  obtain ⟨f, restores, restored⟩ := Arena.exists_restores wf
  obtain ⟨roots, stored, created, formed⟩ :=
    (residualField_trees wf restores (List.forall_mem_map.mp values.inside)).of_ok made
  have lengths : roots.length = ns.length := by
    rw [← List.length_map (f := b.tree), formed, List.length_map, values.length, length]
  -- a difference can be evaluated if its number has an entry
  have each : ∀ (s p : Nat) (n : Number), roots[s]? = some p → ns[s]? = some n →
      ((∃ y z, (b.denote (Cell.reading .single (.real 0) (fun _ => .entry (.real 0))
        Program.ownSlot) p).toEntry .single = .ok y ∧ Entry.toReal y = .ok z) ↔ n.HasEntry) := by
    intro s p n root number
    have tree : (roots.map b.tree)[s]? = _ := congrArg (·[s]?) formed
    rw [List.getElem?_map, root, List.getElem?_map] at tree
    obtain ⟨h, listed, same⟩ := Option.map_eq_some_iff.mp tree.symm
    obtain ⟨var, order, n', number', difference⟩ := form_values (f := f) values listed
    obtain rfl : n = n' := Option.some.inj (number.symm.trans number')
    rw [Arena.denote, ← same, difference]
    -- the tree has the stored value for the key of the number, which may be another value
    show (f (Value.number n).key).Subtracts ↔ _
    rw [Arena.value_of_restored restored Value.subtracts_key, Value.subtracts_key]
    exact Value.subtracts_iff_hasEntry (real n (List.mem_of_getElem? number))
  rw [VectorField.check_of_trees stored created, ← List.length_pos_iff, ← List.length_pos_iff,
    lengths]
  refine and_congr_right fun _ => ⟨?_, ?_⟩
  · intro known n hn
    obtain ⟨s, number⟩ := List.getElem?_of_mem hn
    have below : s < roots.length := lengths ▸ (List.getElem?_eq_some_iff.mp number).1
    have root := List.getElem?_eq_getElem below
    exact (each s _ n root number).mp (known _ (List.mem_of_getElem? root))
  · intro known p hp
    obtain ⟨s, root⟩ := List.getElem?_of_mem hp
    have below : s < ns.length := lengths ▸ (List.getElem?_eq_some_iff.mp root).1
    have number := List.getElem?_eq_getElem below
    exact (each s p _ root number).mpr (known _ (List.mem_of_getElem? number))

section

variable {K : Type} [Field K] {value : Value → K → K} {unary : UnaryOp → K → K}
  {binary : BinaryOp → K → K → K} (key : ∀ v, value v.key = value v)
  (minus : ∀ x y, binary .minus x y = x - y) (t : K)
include key minus

/-- Over exact arithmetic the residual is the state minus the numbers. -/
theorem eval_values {v : Vector K g.size}
    (entries : v.toList = ns.map fun n => value (.number n) t) (y : Vector K g.size) :
    g.eval (.exact value unary binary) t y = y - v := by
  obtain ⟨f, restores, restored⟩ := Arena.exists_restores wf
  have inside : ∀ c ∈ conditions.conditions, c.handle < a.count :=
    List.forall_mem_map.mp (handles ▸ values.inside)
  obtain ⟨size, components⟩ := (residualField_components wf restores inside).of_ok made
  rw [handles] at components
  refine Vectors.ext_get fun i => ?_
  -- component `i` is the difference of entry `i` and the number at the same place
  have below : i.1 < hs.length := values.length ▸ size ▸ i.isLt
  obtain ⟨var, order, n, number, difference⟩ :=
    form_values (f := f) values (List.getElem?_eq_getElem below)
  have state : y.toList[i.1]?.getD t = y.get i := by
    rw [List.getElem?_eq_getElem (by simp)]
    rfl
  have known : value (.number n) t = v.get i := by
    have listed : v.toList[i.1]? = some (value (.number n) t) := by
      rw [entries, List.getElem?_map, number]
      rfl
    exact (List.getElem?_eq_some_iff.mp listed).2.symm
  calc (g.eval (.exact value unary binary) t y).get i
      = component a r f (.exact value unary binary) t hs[i.1] y.toList := by
        refine ((components K (.exact value unary binary) t).getElem y i.isLt
          (by simpa using below)).trans ?_
        rw [List.getElem_map]
    _ = binary .minus (y.toList[i.1]?.getD t) (value (f (Value.number n).key) t) := by
        rw [component, difference]
        rfl
    _ = (y - v).get i := by
        rw [minus, state, Arena.value_of_restored restored key, key, known, Vectors.get_sub]

variable [LinearOrder K] [IsStrictOrderedRing K] {N : Numerics K} {settings : NewtonSettings K}

/-- Over exact arithmetic the search ends at the numbers, unless their norm is within the
    tolerance.  Then it ends where it starts, at zero. -/
theorem search_values (solves : N.Solves g.size)
    (even : ∀ v : Vector K g.size, N.norm (-v) = N.norm v) (tolerance : 0 ≤ settings.tolerance)
    (iterations : 1 ≤ settings.maxIterations) {v : Vector K g.size}
    (entries : v.toList = ns.map fun n => value (.number n) t) :
    (search (.exact value unary binary) N settings t none g).point =
      if settings.tolerance < N.norm v then v else 0 := by
  have affine : ∀ y, g.eval (.exact value unary binary) t y =
      (Matrix.identity : Matrix K g.size g.size).apply y + -v := by
    intro y
    rw [eval_values wf handles values made key minus t entries, Matrix.identity_apply,
      sub_eq_add_neg]
  have nonsingular : (Matrix.identity : Matrix K g.size g.size).Nonsingular := by
    intro y z same
    rwa [Matrix.identity_apply, Matrix.identity_apply] at same
  have zero : start g.size (none : Option (List K)) = 0 :=
    Vectors.ext_get fun i => by simp [start]
  have first : g.eval (.exact value unary binary) t 0 = -v := by
    rw [affine, Matrix.identity_apply, zero_add]
  -- one step from zero leads to the numbers, since the matrix of the system is the identity
  have step : (0 : Vector K g.size) + N.solve Matrix.identity (- -v) = v := by
    rw [zero_add, neg_neg, ← Matrix.identity_apply (N.solve _ _),
      solves.apply_solve _ _ nonsingular]
  rw [search_eq_of_affine affine nonsingular solves tolerance iterations none]
  simp only [zero, first, even, step]
  split <;> rfl

end

end

/-- Over exact arithmetic the search for a zero of the field finds the numbers, unless their norm
    is within the tolerance. -/
def Finds (g : VectorField) (ns : List Number) : Prop :=
  ∀ (K : Type) [Field K] [LinearOrder K] [IsStrictOrderedRing K] (value : Value → K → K)
    (unary : UnaryOp → K → K) (binary : BinaryOp → K → K → K) (N : Numerics K)
    (settings : NewtonSettings K) (t : K), (∀ v, value v.key = value v) →
    (∀ x y, binary .minus x y = x - y) → N.Solves g.size →
    (∀ v : Vector K g.size, N.norm (-v) = N.norm v) → 0 ≤ settings.tolerance →
    1 ≤ settings.maxIterations → ∃ v : Vector K g.size,
      v.toList = ns.map (fun n => value (.number n) t) ∧
      (search (.exact value unary binary) N settings t none g).point =
        if settings.tolerance < N.norm v then v else 0

theorem finds_values (wf : a.WellFormed) {conditions : SortedConditions}
    (handles : conditions.conditions.map Condition.handle = hs)
    (values : Conditions.AreValues a r ns hs) (length : ns.length = r.slots.size) {g : VectorField}
    (made : residualField conditions r r.slots a = .ok g b) : Finds g ns := by
  intro K _ _ _ value unary binary N settings t key minus solves even tolerance iterations
  have fits : (ns.map fun n => value (.number n) t).length = g.size := by
    rw [List.length_map, length, size_residualField made]
  refine ⟨⟨(ns.map fun n => value (.number n) t).toArray, fits⟩, rfl, ?_⟩
  exact search_values wf handles values made key minus t solves even tolerance iterations rfl

/-- Each slot has the condition that its entry is the number at the same place, and the state is
    where the search for a zero of their residual ends.  Over exact arithmetic it finds the
    numbers. -/
structure FixedBy (b : Arena) (r : Registry) (options : ReductionOptions) (ns : List Number)
    (sorted : SortedConditions) (state : List Float) (failed : Bool) : Prop where
  length : sorted.conditions.length = ns.length
  slots : ∀ (k : Nat) (c : Condition), sorted.conditions[k]? = some c →
    (c.index = k ∧ c.slot = k ∧ r.slots.slot? c.var c.order = some k) ∧
    ∃ n, ns[k]? = some n ∧ b.expression c.handle = .valueCondition c.var c.order n
  solved : ∃ a g, a.WellFormed ∧ a.Extends b ∧ residualField sorted r r.slots a = .ok g b ∧
    Finds g ns ∧
    let settings := ⟨options.conditionTolerance, options.conditionIterations⟩
    let last := search .double .double settings sorted.location none g
    state = last.point.toList ∧ failed = Newton.failed settings Numerics.double.norm last

/-- Numbers that have entries fix the state, and others do not. -/
theorem find_values (wf : a.WellFormed) (values : Conditions.AreValues a r ns hs)
    (length : ns.length = r.slots.size) (real : ∀ n ∈ ns, n.isReal = true) {location : Float}
    {endpoint : Endpoint} {sorted : SortedConditions}
    (run : Conditions.sort a hs r r.slots location endpoint = .ok sorted)
    (options : ReductionOptions) :
    Ends (find sorted r r.slots options none) a
      (fun q b => (ns ≠ [] ∧ ∀ n ∈ ns, n.HasEntry) ∧ FixedBy b r options ns sorted q.1 q.2)
      fun _ _ => ¬ (ns ≠ [] ∧ ∀ n ∈ ns, n.HasEntry) := by
  obtain ⟨sorts, order, handles⟩ := (values.sort_ended location endpoint).of_ok run
  have inside : ∀ c ∈ sorted.conditions, c.handle < a.count :=
    List.forall_mem_map.mp (handles ▸ values.inside)
  obtain ⟨g, b, made, size⟩ := (residualField_of_sort wf (values.ready wf) run).exists_ok
  obtain ⟨-, grown⟩ := (FirstOrder.residualField_grows wf inside r).of_ok made
  have check := check_values wf handles values made length real
  rw [find_eq, Ends, run_bind made]
  show Ends (MonadExcept.ofExcept
    (g.check [(List.replicate r.slots.size (0 : Float)).length]) >>= _) b _ _
  -- the search starts from as many zeros as the residual has components
  rw [List.length_replicate, ← size]
  apply Ends.bind
  apply Ends.ofExcept
  cases outcome : g.check [g.size] with
  | error e =>
    intro able
    cases outcome.symm.trans (check.mpr able)
  | ok _ =>
    refine ⟨check.mp outcome, ?_, ?_, ?_⟩
    · rw [sorts.length, length]
    · intro k c stored
      obtain ⟨slot, -, key, -⟩ := sorts.fixes k c stored
      refine ⟨⟨order k c stored, slot, key⟩, ?_⟩
      obtain ⟨h, n, listed, number, inside, same⟩ := values.poses _ _ _ key
      obtain rfl : c.handle = h := by
        rw [← handles, List.getElem?_map, stored] at listed
        exact Option.some.inj listed
      exact ⟨n, number, (grown.expression wf inside).trans same⟩
    · exact ⟨a, g, wf, grown, made, finds_values wf handles values length made, rfl, rfl⟩

/-! ### Real numbers -/

/-- Real numbers with the Euclidean norm and with elimination. -/
noncomputable def euclidean : Numerics ℝ :=
  ⟨fun x => √(x.toList.map fun v => v * v).sum, Linear.solve, 1 / 1000⟩

theorem euclidean_solves (n : Nat) : euclidean.Solves n where
  eps_pos := by norm_num [euclidean]
  norm_zero := by simp [euclidean, Vectors.toList_zero]
  apply_solve _ b nonsingular := Linear.solve_solves nonsingular b

theorem euclidean_even {n : Nat} (v : Vector ℝ n) : euclidean.norm (-v) = euclidean.norm v := by
  show √((-v).toList.map fun x => x * x).sum = _
  rw [Vectors.toList_neg, List.map_map]
  simp only [Function.comp_def, neg_mul_neg]
  rfl

/-- The norm of a single number is its magnitude. -/
theorem euclidean_single {n : Nat} {v : Vector ℝ n} {x : ℝ} (single : v.toList = [x]) :
    euclidean.norm v = |x| := by
  show √(v.toList.map fun x => x * x).sum = _
  rw [single]
  simp [Real.sqrt_mul_self_eq_abs]

/-- A number stands for the real number that its double is. -/
noncomputable def realValue (v : Value) (_ : ℝ) : ℝ :=
  (rationalValue v 0 : ℝ)

theorem realValue_key (v : Value) : realValue v.key = realValue v := by
  unfold realValue
  rw [rationalValue_key]

/-- Where the search with real numbers ends, for a residual with differences in it. -/
def RealSearch (g : VectorField) (settings : NewtonSettings ℝ) (y : List ℝ) : Prop :=
  ∀ (unary : UnaryOp → ℝ → ℝ) (binary : BinaryOp → ℝ → ℝ → ℝ) (t : ℝ),
    (∀ x y, binary .minus x y = x - y) →
    (search (.exact realValue unary binary) euclidean settings t none g).point.toList = y

/-- A single number is found, unless its magnitude is within the tolerance. -/
theorem FixedBy.search_single {options : ReductionOptions} {n : Number} {sorted : SortedConditions}
    {state : List Float} {failed : Bool} (fixed : FixedBy b r options [n] sorted state failed)
    {settings : NewtonSettings ℝ} (tolerance : 0 ≤ settings.tolerance)
    (iterations : 1 ≤ settings.maxIterations) :
    ∃ a g, residualField sorted r r.slots a = .ok g b ∧ RealSearch g settings
      [if settings.tolerance < |(n.rational : ℝ)| then (n.rational : ℝ) else 0] := by
  obtain ⟨a, g, -, -, made, finds, -⟩ := fixed.solved
  refine ⟨a, g, made, ?_⟩
  intro unary binary t minus
  obtain ⟨v, entries, point⟩ := finds ℝ realValue unary binary euclidean settings t realValue_key
    minus (euclidean_solves _) euclidean_even tolerance iterations
  have single : v.toList = [(n.rational : ℝ)] := entries
  rw [point, euclidean_single single]
  split
  · exact single
  · have size : g.size = 1 := by simpa using congrArg List.length single
    rw [Vectors.toList_zero, size]
    rfl

end InitialState

/-! ## The first-order system -/

/-- The problem with conditions at one end only, the right one or the left one. -/
def Posed.withConditions (posed : Posed) (final : Bool) (source : ConditionSource) : Posed :=
  { posed with
    left := if final then none else some source
    right := if final then some source else none }

namespace FirstOrder

variable {posed : Posed} {w w' : Workspace} {s : FirstOrderSystem}

/-- With conditions the same stages lead to the same system, and its state is fixed then. -/
theorem reduce_withConditions (left : posed.left = none) (right : posed.right = none)
    (run : reduce posed w = .ok s w') : ∃ p w₁ given,
      trace posed.operators posed.domain posed.orders w = .ok p w₁ ∧
      Domain.create posed.domain = .ok given ∧
      (p.equations.map Traced.domain).foldlM Domain.union given = .ok s.domain ∧
      splitEquations p s.domain posed w₁ = .ok s.system w' ∧ s.arena = p.arena ∧
      ∀ (final : Bool) source, reduce (posed.withConditions final source) w = (do
        let fixed ← fixState p s.domain s.system posed.options source
          (if final then .right else .left)
        return { s with
          domain := fixed.domain, conditions := some fixed.conditions, state := some fixed.state,
          failures := if fixed.failed then 1 else 0 }) w' := by
  obtain ⟨p, w₁, given, traced, created, joined, split, made, same⟩ :=
    (reduce_eq_ok left right).mp run
  have arena : s.arena = p.arena := congrArg FirstOrderSystem.arena same
  refine ⟨p, w₁, given, traced, created, joined, split, arena, ?_⟩
  intro final source
  have single : ((posed.withConditions final source).left.isSome &&
      (posed.withConditions final source).right.isSome) = false := by
    cases final <;> rfl
  have found : conditionEnd (posed.withConditions final source) =
      some (source, if final then .right else .left) := by
    cases final <;> rfl
  have get : (MonadState.get : Tracing Workspace) w' = .ok w' w' := rfl
  -- no stage but the last one looks at the conditions
  unfold reduce
  rw [single, found, if_neg Bool.false_ne_true, arena]
  refine (run_bind traced).trans ?_
  refine (run_bind (Tracing.checkDomain_eq_ok.mpr ⟨created, rfl⟩)).trans ?_
  refine (run_bind (joinDomains_eq_ok.mpr ⟨joined, rfl⟩)).trans ?_
  refine (run_bind split).trans ?_
  refine (run_bind get).trans ?_
  exact run_bind (Tracing.ofExcept_eq_ok.mpr ⟨made, rfl⟩)

/-- Numbers that have entries are conditions that can be sorted and solved, and they add no
    breakpoints. -/
theorem fixState_values (wf : w.WellFormed) {p : TracedProblem} {given : Domain Float}
    (inside : p.arena < w.arenas.size) (leaves : p.HasLeaves given w) {domain : Domain Float}
    (includes : domain.Includes Doubles.rank given) {system : SplitSystem}
    (slots : system.slots = system.registry.slots) (size : system.registry.size = p.names.length)
    (options : ReductionOptions) {ns : List Number} (real : ∀ n ∈ ns, n.isReal = true)
    (length : ns.length = system.slots.size) (final : Bool) :
    Ends (fixState p domain system options (.values (ns.map .number))
        (if final then .right else .left)) w
      (fun fixed w' => (ns ≠ [] ∧ ∀ n ∈ ns, n.HasEntry) ∧ fixed.domain = domain ∧
        fixed.conditions.location = (if final then domain.right else domain.left) ∧
        fixed.conditions.endpoint = (if final then .right else .left) ∧
        InitialState.FixedBy (w'.arena p.arena) system.registry options ns fixed.conditions
          fixed.state fixed.failed)
      fun _ _ => ¬ (ns ≠ [] ∧ ∀ n ∈ ns, n.HasEntry) := by
  rw [slots] at length
  unfold fixState
  rw [slots]
  apply Ends.bind
  apply (conditionTrees_values wf leaves size real length).mono ?_ fun _ _ => False.elim
  rintro es w₁ ⟨grown, poses⟩
  -- the expressions have the domain that was given, which is part of the joined one
  have joined : joinDomains domain es w₁ = .ok domain w₁ := by
    refine joinDomains_eq_ok.mpr ⟨Doubles.ranked.foldlM_union_of_includes ?_, rfl⟩
    intro d hd
    obtain ⟨e, he, rfl⟩ := List.mem_map.mp hd
    obtain ⟨entry, -, is, -⟩ := exists_mem_of_forall₂_right poses he
    rw [is.fits.2]
    exact includes
  apply Ends.bind
  unfold Ends
  rw [joined]
  show Ends _ w₁ _ _
  apply Ends.within
  have wf₁ := grown.after p.arena
  have values := Conditions.areValues_of_poses length poses
  -- nothing is left to normalise
  apply Ends.bind
  apply ((Arena.normalize_settled wf₁ (values.settled wf₁)).and
    (Arena.normalize_ends wf₁ values.inside)).mono ?_ fun _ _ failed => failed.1.elim
  rintro _ b ⟨⟨rfl, -⟩, wf₂, extended, -⟩
  have values' := values.grow wf₁ extended
  refine Ends.bind (Ends.get (Ends.bind (Ends.ofExcept ?_)))
  apply Ended.intro
  · intro sorted run
    obtain ⟨sorts, -⟩ := (values'.sort_ended _ _).of_ok run
    apply Ends.bind
    apply (InitialState.find_values wf₂ values' length real run options).weaken
    rintro ⟨state, failed⟩ c ⟨able, fixed⟩
    refine Ends.pure ⟨able, rfl, ?_, sorts.endpoint, ?_⟩
    · rw [sorts.location]
      cases final <;> rfl
    · rwa [Workspace.arena_put_self (Nat.lt_of_lt_of_le inside grown.size)]
  · exact fun e failed => ((values'.sort_ended _ _).of_error failed).elim

/-- What a reduction with numbers as conditions leads to, from what it leads to without them. -/
theorem reduce_values_ends (lawful : posed.Lawful) (left : posed.left = none)
    (right : posed.right = none) (wf : w.WellFormed) (rhs : posed.rhs.Stored w)
    (run : reduce posed w = .ok s w') {ns : List Number} (real : ∀ n ∈ ns, n.isReal = true)
    (length : ns.length = s.system.slots.size) (final : Bool) :
    Ends (reduce (posed.withConditions final (.values (ns.map .number)))) w
      (fun s' w₂ => (ns ≠ [] ∧ ∀ n ∈ ns, n.HasEntry) ∧ ∃ sorted state failed,
        s' = { s with
          conditions := some sorted, state := some state, failures := if failed then 1 else 0 } ∧
        sorted.location = (if final then s.domain.right else s.domain.left) ∧
        sorted.endpoint = (if final then .right else .left) ∧
        InitialState.FixedBy (w₂.arena s.arena) s.system.registry posed.options ns sorted state
          failed)
      fun _ _ => ¬ (ns ≠ [] ∧ ∀ n ∈ ns, n.HasEntry) := by
  obtain ⟨p, w₁, given, traced, created, joined, split, arena, stages⟩ :=
    reduce_withConditions left right run
  obtain ⟨grown₁, stored⟩ := (trace_runs lawful.operators _ _).of_ok wf traced
  obtain ⟨-, place, count⟩ := (trace_place lawful.operators _ _).of_ok wf traced
  obtain ⟨-, given', created', leaves⟩ := (trace_leaves lawful.operators _ _).of_ok wf traced
  obtain rfl : given = given' := Except.ok.inj (created.symm.trans created')
  obtain ⟨grown₂, slots, size⟩ :=
    (splitEquations_grows stored s.domain (rhs.grow grown₁)).of_ok grown₁.after split
  -- the slots were allocated for the names of this very problem, which bounds the values
  have names : s.system.registry.size = p.names.length := by
    rw [size, ← count]
    exact (grown₂.arena _ stored.arena).size
  rw [Ends, stages]
  show Ends _ w' _ _
  apply Ends.bind
  apply (fixState_values grown₂.after (stored.grow grown₂).arena (leaves.grow grown₂)
    (Doubles.ranked.includes_of_foldlM joined) slots names posed.options real length final).weaken
  rintro ⟨domain, sorted, state, failed⟩ w₂ ⟨able, rfl, location, endpoint, fixed⟩
  exact Ends.pure ⟨able, sorted, state, failed, rfl, location, endpoint, arena ▸ fixed⟩

/-- **Numbers as conditions fix the state.**  Let a problem be reducible, and let there be a real
    number for each slot of its state.  With these numbers as conditions at either end, reduction
    has a result if there are slots and all numbers have entries.  The system is the same then, the
    number at place `k` is the condition for slot `k`, and the state is where the search for a zero
    of the residual ends.  Over exact arithmetic this search ends at the numbers themselves, unless
    their norm is within the tolerance.  Then it ends at zero. -/
theorem reduce_values (lawful : posed.Lawful) (left : posed.left = none)
    (right : posed.right = none) (wf : w.WellFormed) (rhs : posed.rhs.Stored w)
    (run : reduce posed w = .ok s w') {ns : List Number} (real : ∀ n ∈ ns, n.isReal = true)
    (length : ns.length = s.system.slots.size) (final : Bool) :
    ((∃ s' w₂, reduce (posed.withConditions final (.values (ns.map .number))) w = .ok s' w₂) ↔
      ns ≠ [] ∧ ∀ n ∈ ns, n.HasEntry) ∧
    ∀ s' w₂, reduce (posed.withConditions final (.values (ns.map .number))) w = .ok s' w₂ →
      ∃ sorted state failed, s' = { s with
          conditions := some sorted, state := some state, failures := if failed then 1 else 0 } ∧
        sorted.location = (if final then s.domain.right else s.domain.left) ∧
        sorted.endpoint = (if final then .right else .left) ∧
        InitialState.FixedBy (w₂.arena s.arena) s.system.registry posed.options ns sorted state
          failed := by
  have ends := reduce_values_ends lawful left right wf rhs run real length final
  refine ⟨(ends.weaken fun _ _ => And.left).exists_ok_iff, ?_⟩
  exact fun s' w₂ run' => (ends.of_ok run').2

/-- The problem `u' = 1` has a single slot. -/
theorem slots_climb (run : reduce climb default = .ok s w') : s.system.slots.size = 1 := by
  obtain ⟨s', w₂, run', climbs, -⟩ := (reduce_climb climb_isClimb Workspace.wellFormed_default).exists_ok
  obtain ⟨rfl, rfl⟩ := EStateM.Result.ok.inj (run.symm.trans run')
  obtain ⟨p, w₁, given, traced, -, -, split, -⟩ := (reduce_eq_ok rfl rfl).mp run
  obtain ⟨grown, stored⟩ :=
    (trace_runs climb_lawful.operators _ _).of_ok Workspace.wellFormed_default traced
  obtain ⟨h, v, equations, -⟩ := climbs.equations
  have untraced : climb.rhs.Untraced := fun e same => nomatch same
  obtain ⟨-, -, lowered⟩ :=
    (splitEquations_lowered grown.after stored s.domain untraced).of_ok split
  rw [← lowered.length, equations]
  rfl

/-- The condition `u = 1` at the left end of `u' = 1`. -/
theorem reduce_values_climb : ∃ s' w₂ sorted a g,
    reduce (climb.withConditions false (.values [.number (.int 1)])) default = .ok s' w₂ ∧
    s'.conditions = some sorted ∧
    InitialState.residualField sorted s'.system.registry s'.system.registry.slots a =
      .ok g (w₂.arena s'.arena) ∧
    InitialState.RealSearch g ⟨1 / 1000000, 20⟩ [1] := by
  obtain ⟨s, w', run, -⟩ := (reduce_climb climb_isClimb Workspace.wellFormed_default).exists_ok
  have real : ∀ n ∈ [Number.int 1], n.isReal = true := List.forall_mem_singleton.mpr rfl
  have rhs : climb.rhs.Stored default := fun e same => nomatch same
  obtain ⟨able, fixes⟩ := reduce_values climb_lawful rfl rfl Workspace.wellFormed_default rhs run
    real (slots_climb run).symm false
  have entries : [Number.int 1] ≠ [] ∧ ∀ n ∈ [Number.int 1], n.HasEntry :=
    ⟨List.cons_ne_nil _ _, List.forall_mem_singleton.mpr ⟨_, rfl⟩⟩
  obtain ⟨s', w₂, run'⟩ := able.mpr entries
  obtain ⟨sorted, state, failed, rfl, -, -, fixed⟩ := fixes s' w₂ run'
  have tolerance : 0 ≤ (⟨1 / 1000000, 20⟩ : NewtonSettings ℝ).tolerance := by norm_num
  have iterations : 1 ≤ (⟨1 / 1000000, 20⟩ : NewtonSettings ℝ).maxIterations := by norm_num
  obtain ⟨a, g, made, search⟩ := fixed.search_single tolerance iterations
  refine ⟨_, w₂, sorted, a, g, run', rfl, made, ?_⟩
  have one : (Number.int 1).rational = 1 := rationalOfFloat_one (by decide +kernel)
  rw [one] at search
  norm_num at search
  exact search

/-- The condition `u = 0.000001` there.  The tolerance is as large, so the search ends at zero. -/
theorem reduce_values_small : ∃ s' w₂ sorted a g,
    reduce (climb.withConditions false (.values [.number (.ofFloat 1e-6)])) default = .ok s' w₂ ∧
    s'.conditions = some sorted ∧
    InitialState.residualField sorted s'.system.registry s'.system.registry.slots a =
      .ok g (w₂.arena s'.arena) ∧
    InitialState.RealSearch g
      ⟨rationalOfFloat climb.options.conditionTolerance, climb.options.conditionIterations⟩ [0] ∧
    ([0] : List ℝ) ≠ [((Number.ofFloat 1e-6).rational : ℝ)] := by
  obtain ⟨s, w', run, -⟩ := (reduce_climb climb_isClimb Workspace.wellFormed_default).exists_ok
  have real : ∀ n ∈ [Number.ofFloat 1e-6], n.isReal = true := List.forall_mem_singleton.mpr rfl
  have rhs : climb.rhs.Stored default := fun e same => nomatch same
  have ends := reduce_values_ends climb_lawful rfl rfl Workspace.wellFormed_default rhs run real
    (slots_climb run).symm false
  have entries : [Number.ofFloat 1e-6] ≠ [] ∧ ∀ n ∈ [Number.ofFloat 1e-6], n.HasEntry :=
    ⟨List.cons_ne_nil _ _, List.forall_mem_singleton.mpr (Number.hasEntry_iff.mpr nofun)⟩
  obtain ⟨s', w₂, run', -, sorted, state, failed, rfl, -, -, fixed⟩ :=
    (ends.mono (fun _ _ => id) fun _ _ fails => fails entries).exists_ok
  -- the number is the tolerance
  have value : rationalOfFloat 1e-6 = 4722366482869645 * 2 ^ (-72 : Int) := by
    rfl
  have positive : 0 < (rationalOfFloat 1e-6 : ℝ) := by
    rw [value]
    norm_num
  let settings : NewtonSettings ℝ :=
    ⟨rationalOfFloat climb.options.conditionTolerance, climb.options.conditionIterations⟩
  have tolerance : 0 ≤ settings.tolerance := positive.le
  have iterations : 1 ≤ settings.maxIterations := by decide
  obtain ⟨a, g, made, search⟩ := fixed.search_single tolerance iterations
  refine ⟨_, w₂, sorted, a, g, run', rfl, made, ?_, ?_⟩
  · have within : ¬ (rationalOfFloat climb.options.conditionTolerance : ℝ) <
        |((Number.ofFloat 1e-6).rational : ℝ)| := by
      show ¬ (rationalOfFloat 1e-6 : ℝ) < |(rationalOfFloat 1e-6 : ℝ)|
      rw [abs_of_pos positive]
      exact lt_irrefl _
    rwa [if_neg within] at search
  · show ([0] : List ℝ) ≠ [(rationalOfFloat 1e-6 : ℝ)]
    simp [positive.ne]

end FirstOrder

end JetForm
