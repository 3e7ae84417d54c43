import JetForm.Proofs.Differential.NormalForm
import JetForm.Proofs.Differential.Solutions
import JetForm.Proofs.Reduction.Conditions
import JetForm.Proofs.Trace.Expression
import JetForm.Reduction.FirstOrder

/-! # The stages of a reduction

    An operator is a function on workspaces.  It is `Lawful` if it keeps them
    well formed and gives back what is stored in them; nothing else is asked of
    it.  Every stage then only adds to the arenas, and what it returns is stored
    in them.

    An operator `Keeps` a relation between trees and domains if its results fit
    the relation wherever its arguments do.  The lawful operators are those that
    keep the relation that always holds. -/

namespace JetForm

universe u

/-! ## What is posed -/

/-- Applied to stored expressions, the operator gives stored ones. -/
def Operator.Lawful (op : Operator) : Prop :=
  ∀ (w : Workspace) (t : Traced) (us : List Traced), t.Stored w → (∀ u ∈ us, u.Stored w) →
    Runs (op.apply t us) w fun w' v => v.Stored w'

/-- The same for conditions. -/
def ConditionSource.Lawful : ConditionSource → Prop
  | .expressions apply => ∀ (w : Workspace) (us : List Traced), (∀ u ∈ us, u.Stored w) →
    Runs (apply us) w fun w' v => v.Stored w'
  | .values _ => True

/-- The functions of a problem are lawful. -/
structure Posed.Lawful (posed : Posed) : Prop where
  operators : ∀ op, some op ∈ posed.operators → op.Lawful
  left : ∀ source, posed.left = some source → source.Lawful
  right : ∀ source, posed.right = some source → source.Lawful

/-- The source of the conditions is that of one of the ends. -/
theorem FirstOrder.given_of_conditionEnd {posed : Posed} {source : ConditionSource}
    {endpoint : Endpoint} (found : conditionEnd posed = some (source, endpoint)) :
    posed.left = some source ∨ posed.right = some source := by
  unfold conditionEnd at found
  split at found
  · next given =>
    cases found
    exact Or.inl given
  · next _ given =>
    cases found
    exact Or.inr given
  · cases found

variable {R : Tree → Domain Float → Prop}

/-- Applied to expressions that fit, the operator gives expressions that fit. -/
def Operator.Keeps (R : Tree → Domain Float → Prop) (op : Operator) : Prop :=
  ∀ (w : Workspace) (t : Traced) (us : List Traced), t.Fits R w → (∀ u ∈ us, u.Fits R w) →
    Runs (op.apply t us) w fun w' v => v.Fits R w'

/-- The same for conditions. -/
def ConditionSource.Keeps (R : Tree → Domain Float → Prop) : ConditionSource → Prop
  | .expressions apply => ∀ (w : Workspace) (us : List Traced), (∀ u ∈ us, u.Fits R w) →
    Runs (apply us) w fun w' v => v.Fits R w'
  | .values _ => True

/-- The functions of a problem keep the relation. -/
structure Posed.Keeps (R : Tree → Domain Float → Prop) (posed : Posed) : Prop where
  operators : ∀ op, some op ∈ posed.operators → op.Keeps R
  left : ∀ source, posed.left = some source → source.Keeps R
  right : ∀ source, posed.right = some source → source.Keeps R

theorem Operator.lawful_iff_keeps {op : Operator} : op.Lawful ↔ op.Keeps fun _ _ => True := by
  constructor
  · intro lawful w t us ht hus
    apply (lawful w t us ht.stored fun u hu => (hus u hu).stored).weaken
    exact fun _ _ _ stored => .of_stored stored
  · intro keeps w t us ht hus
    have fit : ∀ u ∈ us, u.Fits (fun _ _ => True) w := fun u hu => Traced.fits_true.mpr (hus u hu)
    apply (keeps w t us (Traced.fits_true.mpr ht) fit).weaken
    exact fun _ _ _ fits => fits.stored

theorem ConditionSource.lawful_iff_keeps {source : ConditionSource} :
    source.Lawful ↔ source.Keeps fun _ _ => True := by
  cases source with
  | values vs => exact Iff.rfl
  | expressions apply =>
    constructor
    · intro lawful w us hus
      apply (lawful w us fun u hu => (hus u hu).stored).weaken
      exact fun _ _ _ stored => .of_stored stored
    · intro keeps w us hus
      apply (keeps w us fun u hu => Traced.fits_true.mpr (hus u hu)).weaken
      exact fun _ _ _ fits => fits.stored

theorem Posed.Keeps.lawful {posed : Posed} (keeps : posed.Keeps fun _ _ => True) :
    posed.Lawful where
  operators op listed := Operator.lawful_iff_keeps.mpr (keeps.operators op listed)
  left source given := ConditionSource.lawful_iff_keeps.mpr (keeps.left source given)
  right source given := ConditionSource.lawful_iff_keeps.mpr (keeps.right source given)

/-- All right-hand sides that are expressions are stored. -/
def RightHandSides.Stored (w : Workspace) : RightHandSides → Prop
  | .common v => ∀ e, v = .traced e → e.Stored w
  | .each vs => ∀ v ∈ vs, ∀ e, v = .traced e → e.Stored w

theorem RightHandSides.Stored.grow {w w' : Workspace} {rhs : RightHandSides}
    (stored : rhs.Stored w) (grown : w.Grows w') : rhs.Stored w' := by
  cases rhs with
  | common v => exact fun e same => (stored e same).grow grown
  | each vs => exact fun v hv e same => (stored v hv e same).grow grown

/-- The equations and unknowns of a traced problem are stored in its arena. -/
structure TracedProblem.Stored (w : Workspace) (p : TracedProblem) : Prop where
  arena : p.arena < w.arenas.size
  equations : ∀ e ∈ p.equations, e.Stored w ∧ e.arena = p.arena
  unknowns : ∀ u ∈ p.unknowns, u.Stored w ∧ u.arena = p.arena

theorem TracedProblem.Stored.grow {w w' : Workspace} {p : TracedProblem} (stored : p.Stored w)
    (grown : w.Grows w') : p.Stored w' := by
  refine ⟨Nat.lt_of_lt_of_le stored.arena grown.size, ?_, ?_⟩
  · intro e he
    exact ⟨(stored.equations e he).1.grow grown, (stored.equations e he).2⟩
  · intro u hu
    exact ⟨(stored.unknowns u hu).1.grow grown, (stored.unknowns u hu).2⟩

/-- The equations and unknowns fit, and they are in the arena of the problem. -/
structure TracedProblem.Fits (R : Tree → Domain Float → Prop) (w : Workspace)
    (p : TracedProblem) : Prop where
  arena : p.arena < w.arenas.size
  equations : ∀ e ∈ p.equations, e.Fits R w ∧ e.arena = p.arena
  unknowns : ∀ u ∈ p.unknowns, u.Fits R w ∧ u.arena = p.arena

theorem TracedProblem.Fits.grow {w w' : Workspace} {p : TracedProblem} (fits : p.Fits R w)
    (grown : w.Grows w') : p.Fits R w' := by
  refine ⟨Nat.lt_of_lt_of_le fits.arena grown.size, ?_, ?_⟩
  · intro e he
    exact ⟨(fits.equations e he).1.grow grown, (fits.equations e he).2⟩
  · intro u hu
    exact ⟨(fits.unknowns u hu).1.grow grown, (fits.unknowns u hu).2⟩

theorem TracedProblem.Fits.stored {w : Workspace} {p : TracedProblem} (fits : p.Fits R w) :
    p.Stored w where
  arena := fits.arena
  equations e he := ⟨(fits.equations e he).1.stored, (fits.equations e he).2⟩
  unknowns u hu := ⟨(fits.unknowns u hu).1.stored, (fits.unknowns u hu).2⟩

theorem TracedProblem.Stored.fits {w : Workspace} {p : TracedProblem} (stored : p.Stored w) :
    p.Fits (fun _ _ => True) w where
  arena := stored.arena
  equations e he := ⟨Traced.fits_true.mpr (stored.equations e he).1, (stored.equations e he).2⟩
  unknowns u hu := ⟨Traced.fits_true.mpr (stored.unknowns u hu).1, (stored.unknowns u hu).2⟩

/-- The unknowns are the leaves of the arena, one for each name. -/
def TracedProblem.HasLeaves (d : Domain Float) (w : Workspace) (p : TracedProblem) : Prop :=
  List.Forall₂ (fun i u => u.Is (.leaf i) d w ∧ u.arena = p.arena) (List.range p.names.length)
    p.unknowns

theorem TracedProblem.HasLeaves.grow {d : Domain Float} {w w' : Workspace} {p : TracedProblem}
    (leaves : p.HasLeaves d w) (grown : w.Grows w') : p.HasLeaves d w' :=
  leaves.imp fun _ _ known => ⟨known.1.grow grown, known.2⟩

namespace FirstOrder

variable {w : Workspace}

/-! ## Tracing -/

/-- The expressions in a result that fits, in the given arena. -/
theorem expressions_runs {i : Nat} (inside : i < w.arenas.size) (what : String) {result : Operand}
    (fits : result.Fits R w) :
    Runs (expressions i what result) w fun w' es => ∀ e ∈ es, e.Fits R w' ∧ e.arena = i := by
  unfold expressions
  apply Runs.mapM_all
  · intro e w' w'' grown known
    exact ⟨known.1.grow grown, known.2⟩
  · intro v hv w' grown
    -- the result is a sequence of items, or its own only item
    have fits : v.Fits R w' := by
      cases fits with
      | sequence fits => exact (fits v hv).grow grown
      | traced fits =>
        cases List.mem_singleton.mp hv
        exact Operand.Fits.traced (fits.grow grown)
      | number | array | external | text | nothing =>
        cases List.mem_singleton.mp hv
        constructor
    cases fits with
    | traced fits =>
      dsimp only
      split
      next same => exact Runs.pure ⟨fits, same⟩
      next =>
        apply Runs.bind (Expression.bring_runs (Nat.lt_of_lt_of_le inside grown.size) fits)
        intro h w'' _ brought
        exact Traced.make_runs brought
    | number | array | external | text | nothing | sequence => exact Runs.throw

theorem equationsOf_runs {p : Placeholders} (fit : p.Fit R w) (several : Bool) {op : Operator}
    (keeps : op.Keeps R) :
    Runs (equationsOf p several op) w fun w' es =>
      ∀ e ∈ es, e.Fits R w' ∧ e.arena = p.time.arena := by
  unfold equationsOf
  apply Runs.bind (keeps w p.time p.unknowns fit.time fun u hu => (fit.unknowns u hu).1)
  intro v w₁ grown result
  apply Runs.bind (expressions_runs (Nat.lt_of_lt_of_le fit.time.arena grown.size) _ result)
  intro es w₂ _ known
  split
  · exact Runs.throw
  · exact Runs.pure known

theorem mem_of_mapM_id {α : Type} {xs : List (Option α)} {ys : List α}
    (all : xs.mapM id = some ys) {y : α} (hy : y ∈ ys) : some y ∈ xs := by
  induction xs generalizing ys with
  | nil =>
    cases all
    cases hy
  | cons x xs ih =>
    rw [List.mapM_cons] at all
    obtain ⟨z, first, all⟩ := Option.bind_eq_some_iff.mp all
    obtain ⟨zs, rest, all⟩ := Option.bind_eq_some_iff.mp all
    cases all
    rcases List.mem_cons.mp hy with rfl | hy
    · exact List.mem_cons.mpr (Or.inl first.symm)
    · exact List.mem_cons_of_mem x (ih rest hy)

/-- Tracing gives equations that fit, in a new arena with as many unknowns as there
    are names. -/
theorem trace_fits {operators : List (Option Operator)}
    (keeps : ∀ op, some op ∈ operators → op.Keeps R) {points : List Float}
    (leaves : LeavesWithin R points) (orders : Option (List Number)) :
    Runs (trace operators points orders) w fun w' p => p.Fits R w' ∧
      (p.arena = w.arenas.size ∧ (w'.arena p.arena).size = p.names.length) ∧
      ∃ given, Domain.create points = .ok given ∧ p.HasLeaves given w' := by
  unfold trace
  split
  · exact Runs.throw
  · exact Runs.throw
  · next op others all =>
    apply Runs.bindExcept
    intro names _
    apply Runs.bindDomain
    intro domain created
    apply Runs.bind (Placeholders.create_leaves names.length domain)
    intro p w₃ _ known
    obtain ⟨are, place, size⟩ := known
    have fit := are.fit (leaves.create created)
    -- each operator only sees the placeholders, which fit the domain the problem was created with
    have equations : Runs ((op :: others).mapM (equationsOf p !others.isEmpty)) w₃ fun w' es =>
        ∀ l ∈ es, ∀ e ∈ l, e.Fits R w' ∧ e.arena = p.time.arena := by
      apply Runs.mapM_all
      · intro l w' w'' grown known e he
        exact ⟨(known e he).1.grow grown, (known e he).2⟩
      · intro op hop w' grown
        have fit' : p.Fit R w' := fit.grow grown
        exact equationsOf_runs fit' _ (keeps op (mem_of_mapM_id all hop))
    apply Runs.bind equations
    intro es w₄ grown known
    apply Runs.pure
    refine ⟨⟨(fit.time.grow grown).arena, ?_, ?_⟩, ⟨place, ?_⟩, domain, created, ?_⟩
    · intro e he
      obtain ⟨l, hl, he⟩ := List.mem_flatten.mp he
      exact known l hl e he
    · intro u hu
      exact ⟨(fit.unknowns u hu).1.grow grown, (fit.unknowns u hu).2⟩
    · rw [(grown.arena _ fit.time.arena).size, place, size, Int.toNat_natCast]
    · exact are.unknowns.imp fun i u known => ⟨known.1.grow grown, known.2⟩

theorem trace_runs {operators : List (Option Operator)}
    (lawful : ∀ op, some op ∈ operators → op.Lawful) (points : List Float)
    (orders : Option (List Number)) :
    Runs (trace operators points orders) w fun w' p => p.Stored w' := by
  have keeps : ∀ op, some op ∈ operators → op.Keeps fun _ _ => True :=
    fun op listed => Operator.lawful_iff_keeps.mp (lawful op listed)
  apply (trace_fits keeps .always orders).weaken
  exact fun _ _ _ known => known.1.stored

/-- The arena of a traced problem is a new one, with as many unknowns as there are
    names. -/
theorem trace_place {operators : List (Option Operator)}
    (lawful : ∀ op, some op ∈ operators → op.Lawful) (points : List Float)
    (orders : Option (List Number)) :
    Runs (trace operators points orders) w fun w' p =>
      p.arena = w.arenas.size ∧ (w'.arena p.arena).size = p.names.length := by
  have keeps : ∀ op, some op ∈ operators → op.Keeps fun _ _ => True :=
    fun op listed => Operator.lawful_iff_keeps.mp (lawful op listed)
  apply (trace_fits keeps .always orders).weaken
  exact fun _ _ _ known => known.2.1

/-- The unknowns of a traced problem are its leaves. -/
theorem trace_leaves {operators : List (Option Operator)}
    (lawful : ∀ op, some op ∈ operators → op.Lawful) (points : List Float)
    (orders : Option (List Number)) :
    Runs (trace operators points orders) w fun w' p =>
      ∃ given, Domain.create points = .ok given ∧ p.HasLeaves given w' := by
  have keeps : ∀ op, some op ∈ operators → op.Keeps fun _ _ => True :=
    fun op listed => Operator.lawful_iff_keeps.mp (lawful op listed)
  apply (trace_fits keeps .always orders).weaken
  exact fun _ _ _ known => known.2.2

/-! ## Domains, right-hand sides -/

/-- Joining domains leaves the workspace as it is. -/
theorem joinDomains_runs (d : Domain Float) (es : List Traced) :
    Runs (joinDomains d es) w fun w' _ => w' = w := by
  unfold joinDomains
  induction es generalizing d with
  | nil => exact Runs.pure rfl
  | cons e es ih =>
    rw [List.foldlM_cons]
    apply Runs.bindDomain
    exact fun d' _ => ih d'

/-- Joining domains depends on nothing but the domains. -/
theorem joinDomains_eq_ok {d d' : Domain Float} {es : List Traced} {w w' : Workspace} :
    joinDomains d es w = .ok d' w' ↔
      (es.map Traced.domain).foldlM Domain.union d = .ok d' ∧ w' = w := by
  unfold joinDomains
  induction es generalizing d with
  | nil =>
    show EStateM.Result.ok d w = .ok d' w' ↔ Except.ok d = .ok d' ∧ _
    simp [eq_comm]
  | cons e es ih =>
    rw [List.foldlM_cons, Tracing.bind_eq_ok, List.map_cons, List.foldlM_cons]
    simp only [Tracing.checkDomain_eq_ok]
    cases d.union e.domain with
    | ok u =>
      constructor
      · rintro ⟨_, _, ⟨⟨⟩, rfl⟩, rest⟩
        exact ih.mp rest
      · exact fun rest => ⟨u, w, ⟨rfl, rfl⟩, ih.mpr rest⟩
    | error e =>
      constructor
      · rintro ⟨_, _, ⟨⟨⟩, -⟩, -⟩
      · rintro ⟨⟨⟩, -⟩

end FirstOrder

section Sides

variable {K : Type u} [Field K] (I : Interpretation K)

/-- A right-hand side that stands for the element `y`: nothing, a number or an
    external function.  Scalars of an array library are read as doubles. -/
inductive Operand.Side (y : K) : Operand → Prop where
  | nothing (zero : y = 0) : Side y .nothing
  | external {f : External} (value : y = I.external f) : Side y (.external f)
  | number {n : Number} (narrow : ∀ x origin, n ≠ .wide x origin) (value : y = I.number n) :
    Side y (.number n)
  | wide {x : Entry} {origin : Origin} (value : ∀ origin', y = I.number (.double x.toFloat origin')) :
    Side y (.number (.wide x origin))
  | scalar {entries : Array Entry} {place : Place}
    (value : ∀ origin, y = I.number (.double (entries[0]?.getD default).toFloat origin)) :
    Side y (.array ⟨⟨[], entries⟩, place⟩)

/-- The right-hand side of equation `e` stands for the element `ys e`. -/
def RightHandSides.Stand (ys : Nat → K) : RightHandSides → Prop
  | .common v => ∀ e, v.Side I (ys e)
  | .each vs => ∀ (e : Nat) v, vs[e]? = some v → v.Side I (ys e)

variable {I}

/-- A number that is left out is zero. -/
theorem is_ofNumber (faithful : I.Faithful) (n : Number) :
    (if n.isZero then RightHandSide.zero else .value (.number n)).Is I (I.number n) := by
  split
  next zero => exact faithful.zero n zero
  next => rfl

theorem FirstOrder.rightHandSide_runs (faithful : I.Faithful) {w : Workspace} (v : Operand)
    (i : Nat) : Runs (rightHandSide i v) w fun _ s => ∀ y, v.Side I y → s.Is I y := by
  -- a literal stands for the double, whatever its origin
  have literal : ∀ x : Float, Runs (do
        let n ← Workspace.literal x
        return if n.isZero then RightHandSide.zero else .value (.number n)) w
      fun _ s => ∀ y, (∀ origin, y = I.number (.double x origin)) → s.Is I y := by
    intro x
    apply Runs.bind (Workspace.literal_runs x)
    intro n w' _ known
    obtain ⟨origin, rfl⟩ := known
    apply Runs.pure
    intro y value
    rw [value origin]
    exact is_ofNumber faithful _
  cases v with
  | nothing =>
    apply Runs.pure
    intro y side
    cases side with
    | nothing zero => exact zero
  | external f =>
    apply Runs.pure
    intro y side
    cases side with
    | external value => exact value
  | number n =>
    cases n with
    | wide x origin =>
      apply (literal x.toFloat).weaken
      intro s w' _ known y side
      cases side with
      | number narrow => exact absurd rfl (narrow x origin)
      | wide value => exact known y value
    | bool | int | double | complex =>
      apply Runs.pure
      intro y side
      cases side with
      | number _ value =>
        subst value
        exact is_ofNumber faithful _
  | array x =>
    obtain ⟨⟨_ | ⟨n, shape⟩, entries⟩, place⟩ := x
    · simp only [rightHandSide]
      apply (literal _).weaken
      intro s w' _ known y side
      cases side with
      | scalar value => exact known y value
    · simp only [rightHandSide]
      apply Runs.pure
      intro y side
      cases side
  | traced e =>
    unfold rightHandSide
    apply Runs.bindGet
    apply Runs.pure
    intro y side
    cases side
  | text | sequence =>
    unfold rightHandSide
    apply Runs.pure
    intro y side
    cases side

theorem FirstOrder.rightHandSides_runs (faithful : I.Faithful) {w : Workspace} (i count : Nat)
    {rhs : RightHandSides} {ys : Nat → K} (stand : rhs.Stand I ys) :
    Runs (rightHandSides i count rhs) w fun _ sides =>
      ∀ (e : Nat) s, sides[e]? = some s → s.Is I (ys e) := by
  have each : ∀ vs : List Operand, (∀ (e : Nat) v, vs[e]? = some v → v.Side I (ys e)) →
      Runs (vs.mapM (rightHandSide i)) w fun _ sides =>
        ∀ (e : Nat) s, sides[e]? = some s → s.Is I (ys e) := by
    intro vs stand
    have run : Runs (vs.mapM (rightHandSide i)) w fun _ sides =>
        List.Forall₂ (fun v s => ∀ y, v.Side I y → s.Is I y) vs sides := by
      apply Runs.mapM
      · exact fun _ _ _ _ _ => id
      · exact fun v _ w' _ => rightHandSide_runs faithful v i
    apply run.weaken
    intro sides w' _ related e s listed
    obtain ⟨v, given, known⟩ := exists_of_forall₂_right related listed
    exact known _ (stand e v given)
  cases rhs with
  | each vs => exact each vs stand
  | common v =>
    apply each
    intro e v' listed
    rw [List.getElem?_replicate] at listed
    obtain ⟨-, same⟩ := Option.ite_none_right_eq_some.mp listed
    cases same
    exact stand e

end Sides

/-! ## Conditions -/

namespace FirstOrder

variable {w : Workspace}

theorem valueCondition_runs (inherited : Inherited R) {i : Nat} {unknowns : List Traced}
    (fit : ∀ u ∈ unknowns, u.Fits R w ∧ u.arena = i) (key : Int × Int) {value : Operand}
    (known : value.Fits R w) :
    Runs (valueCondition unknowns key value) w fun w' es =>
      ∀ e ∈ es, e.Fits R w' ∧ e.arena = i := by
  unfold valueCondition
  split
  · exact Runs.pure (by simp)
  · next u found =>
    obtain ⟨fits, place⟩ := fit u (List.mem_of_getElem? found)
    apply Runs.bind (Traced.diff_runs inherited _ fits)
    intro d w₁ grown derivative
    apply Runs.bind
      (Expression.combine_runs inherited _ (.traced derivative.1) (known.grow grown))
    intro e w₂ _ difference
    have place' : e.arena = i := (difference.2 d rfl).trans (derivative.2.trans place)
    exact Runs.pure (by simpa using ⟨difference.1, place'⟩)

/-- Conditions that fit. -/
theorem conditionTrees_fits (inherited : Inherited R) {p : TracedProblem} (fit : p.Fits R w)
    (slots : SlotTable) {source : ConditionSource} (keeps : source.Keeps R) :
    Runs (conditionTrees p slots source) w fun w' es =>
      ∀ e ∈ es, e.Fits R w' ∧ e.arena = p.arena := by
  unfold conditionTrees
  -- a callable answers with trees; plain values are turned into one condition for each slot
  cases source with
  | expressions apply =>
    apply Runs.bind (keeps w p.unknowns fun u hu => (fit.unknowns u hu).1)
    intro v w' grown result
    exact expressions_runs (Nat.lt_of_lt_of_le fit.arena grown.size) _ result
  | values vs =>
    dsimp only
    split
    · exact Runs.thrown
    · next real =>
      have real : ∀ v ∈ vs, v.realNumber?.isSome := by
        simpa [Option.isSome_iff_ne_none] using real
      split
      · exact Runs.thrown
      · apply Runs.map
        have each : Runs ((slots.keys.zip vs).mapM fun entry =>
            valueCondition p.unknowns entry.1 entry.2) w
            fun w' ls => ∀ l ∈ ls, ∀ e ∈ l, e.Fits R w' ∧ e.arena = p.arena := by
          apply Runs.mapM_all
          · intro l w' w'' grown known e he
            exact ⟨(known e he).1.grow grown, (known e he).2⟩
          · intro entry listed w' grown
            have number := real entry.2 (List.of_mem_zip listed).2
            have known : entry.2.Fits R w' := by
              cases value : entry.2 with
              | number n => exact .number n
              | traced | array | external | text | nothing | sequence =>
                rw [value] at number
                cases number
            exact valueCondition_runs inherited (fit.grow grown).unknowns entry.1 known
        apply each.weaken
        intro ls w' _ known e he
        obtain ⟨l, hl, he⟩ := List.mem_flatten.mp he
        exact known l hl e he

theorem conditionTrees_runs {p : TracedProblem} (stored : p.Stored w) (slots : SlotTable)
    {source : ConditionSource} (lawful : source.Lawful) :
    Runs (conditionTrees p slots source) w fun w' es =>
      ∀ e ∈ es, e.Stored w' ∧ e.arena = p.arena := by
  apply (conditionTrees_fits inherited_always stored.fits slots
    (ConditionSource.lawful_iff_keeps.mp lawful)).weaken
  exact fun _ _ _ known e he => ⟨(known e he).1.stored, (known e he).2⟩

/-- The residual of the conditions only adds trees. -/
theorem residualField_grows {a : Arena} (wf : a.WellFormed) {conditions : SortedConditions}
    (inside : ∀ c ∈ conditions.conditions, c.handle < a.count) (r : Registry) :
    Ends (InitialState.residualField conditions r r.slots) a
      (fun _ b => b.WellFormed ∧ a.Extends b) fun _ _ => True := by
  unfold InitialState.residualField
  refine Ends.bind (Ends.map ((Ends.mapMState (fun _ q b =>
    (b.WellFormed ∧ a.Extends b) ∧ Arena.Remembers (Tree.substitute r r.slots) q.2 b)
    ⟨⟨wf, Arena.Extends.refl a⟩, Arena.remembers_empty⟩ ?_).weaken ?_))
  · intro before h after hs memo b eq known
    obtain ⟨⟨wf', grown⟩, remembers⟩ := known
    have given : h ∈ conditions.conditions.map Condition.handle := by simp [eq]
    obtain ⟨c, hc, rfl⟩ := List.mem_map.mp given
    apply (Substitute.root_ends wf' (grown.lt_count (inside c hc)) remembers).mono
    · intro q b' known
      obtain ⟨⟨t, -, made⟩, remembers'⟩ := known
      exact ⟨⟨made.wellFormed, grown.trans made.grown⟩, remembers'⟩
    · exact fun _ _ _ => trivial
  · intro q b known
    refine Ends.bind (Ends.get (Ends.ofExcept ?_))
    exact Ended.intro (fun _ _ => known.1) fun _ _ => trivial

/-- Solving the conditions only builds trees. -/
theorem find_ends {a : Arena} (wf : a.WellFormed) {conditions : SortedConditions}
    (inside : ∀ c ∈ conditions.conditions, c.handle < a.count) (r : Registry)
    (options : ReductionOptions) (guess : Option (List Float)) :
    Ends (InitialState.find conditions r r.slots options guess) a
      (fun _ b => b.WellFormed ∧ a.Extends b) fun _ _ => True := by
  unfold InitialState.find
  refine Ends.bind ((residualField_grows wf inside r).weaken ?_)
  intro g b known
  exact Ends.bind (Ends.ofExcept (Ended.intro (fun _ _ => Ends.pure known) fun _ _ => trivial))

/-- Fixing the state begins with the expressions of the conditions, which fit,
    and joins their domains. -/
theorem fixState_runs (inherited : Inherited R) {p : TracedProblem} (fit : p.Fits R w)
    (domain : Domain Float) {system : SplitSystem} (slots : system.slots = system.registry.slots)
    (options : ReductionOptions) {source : ConditionSource} (keeps : source.Keeps R)
    (endpoint : Endpoint) :
    Runs (fixState p domain system options source endpoint) w fun _ fixed => ∃ trees w₁,
      conditionTrees p system.slots source w = .ok trees w₁ ∧ w₁.WellFormed ∧
      (∀ e ∈ trees, e.Fits R w₁) ∧ joinDomains domain trees w₁ = .ok fixed.domain w₁ := by
  unfold fixState
  apply Runs.bind (conditionTrees_fits inherited fit system.slots keeps).remember
  intro trees w₁ grown known
  obtain ⟨trees_fit, listed⟩ := known
  apply Runs.bind (joinDomains_runs domain trees).remember
  intro union w' _ known
  obtain ⟨rfl, joined⟩ := known
  have result : ∃ trees w₁, conditionTrees p system.slots source w = .ok trees w₁ ∧
      w₁.WellFormed ∧ (∀ e ∈ trees, e.Fits R w₁) ∧ joinDomains domain trees w₁ = .ok union w₁ :=
    ⟨trees, w', listed, grown.after, fun e he => (trees_fit e he).1, joined⟩
  apply Runs.within (fit.grow grown).arena
  intro wf
  have inside : ∀ h ∈ trees.map Traced.handle, h < (w'.arena p.arena).count := by
    intro h hh
    obtain ⟨e, he, rfl⟩ := List.mem_map.mp hh
    obtain ⟨known, place⟩ := trees_fit e he
    exact place ▸ known.inside
  refine Ends.bind ((Arena.normalize_ends wf inside).mono ?_ fun _ _ _ => trivial)
  intro roots b known
  obtain ⟨wf', extended, normal⟩ := known
  refine Ends.bind (Ends.get (Ends.bind (Ends.ofExcept (Ended.intro ?_ fun _ _ => trivial))))
  intro conditions sorted
  -- sorting only reorders the normalised roots, so every handle it returns was already stored
  have handles : ∀ c ∈ conditions.conditions, c.handle < b.count := by
    intro c hc
    obtain ⟨s, fixes⟩ := Conditions.fixes_of_mem_sort sorted hc
    have listed := fixes.given
    obtain ⟨h, -, normalizes⟩ := exists_of_forall₂_right normal listed
    exact normalizes.inside
  have solved := find_ends wf' handles system.registry options none
  rw [← slots] at solved
  apply Ends.bind
  apply solved.weaken
  intro found c known
  exact Ends.pure ⟨known.1, extended.trans known.2, fun _ _ _ => result⟩

/-! ## All stages -/

/-- A reduction without conditions has a result if all its stages have one. -/
theorem reduce_eq_ok {posed : Posed} (left : posed.left = none) (right : posed.right = none)
    {w w' : Workspace} {s : FirstOrderSystem} :
    reduce posed w = .ok s w' ↔ ∃ p w₁ given,
      trace posed.operators posed.domain posed.orders w = .ok p w₁ ∧
      Domain.create posed.domain = .ok given ∧
      (p.equations.map Traced.domain).foldlM Domain.union given = .ok s.domain ∧
      splitEquations p s.domain posed w₁ = .ok s.system w' ∧
      fieldOf (w'.arena p.arena) s.system.equations = .ok s.field ∧
      s = ⟨p.arena, s.field, s.domain, none, s.system, none, 0⟩ := by
  unfold reduce conditionEnd
  rw [left, right]
  simp only [Option.isSome_none, Bool.false_and, Bool.false_eq_true, if_false]
  constructor
  · intro run
    obtain ⟨p, w₁, traced, run₁⟩ := Tracing.bind_eq_ok.mp run
    obtain ⟨given, _, checked, run₂⟩ := Tracing.bind_eq_ok.mp run₁
    obtain ⟨created, rfl⟩ := Tracing.checkDomain_eq_ok.mp checked
    obtain ⟨domain, _, unions, run₃⟩ := Tracing.bind_eq_ok.mp run₂
    obtain ⟨joined, rfl⟩ := joinDomains_eq_ok.mp unions
    obtain ⟨system, w₂, split, run₄⟩ := Tracing.bind_eq_ok.mp run₃
    obtain ⟨_, _, ⟨⟩, run₅⟩ := Tracing.bind_eq_ok.mp run₄
    obtain ⟨field, _, flattened, run₆⟩ := Tracing.bind_eq_ok.mp run₅
    obtain ⟨made, rfl⟩ := Tracing.ofExcept_eq_ok.mp flattened
    cases run₆
    exact ⟨p, _, given, traced, created, joined, split, made, rfl⟩
  -- backwards: each stage is run in the workspace the stage before it left
  · rintro ⟨p, w₁, given, traced, created, joined, split, made, same⟩
    have get : (MonadState.get : Tracing Workspace) w' = .ok w' w' := rfl
    rw [run_bind traced, run_bind (Tracing.checkDomain_eq_ok.mpr ⟨created, rfl⟩),
      run_bind (joinDomains_eq_ok.mpr ⟨joined, rfl⟩), run_bind split, run_bind get,
      run_bind (Tracing.ofExcept_eq_ok.mpr ⟨made, rfl⟩)]
    exact congrArg (EStateM.Result.ok · w') same.symm

end FirstOrder

end JetForm
