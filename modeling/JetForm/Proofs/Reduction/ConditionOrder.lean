import JetForm.Proofs.Numerics.Reordering
import JetForm.Proofs.Reduction.Normalize
import JetForm.Proofs.Reduction.Residual
import JetForm.Proofs.Reduction.StoredValues
import JetForm.Proofs.Reordering

/-! # Conditions in another order

    Whether conditions can be sorted is a matter of pairings, and a pairing does
    not know in which order the conditions are written.  The one that is found may
    well depend on it, and so do the places of the conditions in the residual.

    But they are the same conditions.  So the residual has the same components,
    and Newton's method goes through the same states. -/

namespace JetForm

namespace Conditions

open Matching

variable {a : Arena} {r : Registry} {roots roots' : List Nat}

/-! ## When conditions can be sorted -/

/-- All slots of all terms are found, or some condition has a term without one. -/
theorem candidates_ended : Ended (candidates a r r.slots roots) (List.Forall₂ (Listed a r) roots)
    fun _ => ∃ root ∈ roots, ¬ ∃ slots, Listed a r root slots := by
  refine Ended.mapM fun root hr => Ended.bind (Ended.intro ?_ ?_)
  · intro ts known
    -- a term without a slot belongs to the condition itself
    have each : ∀ term ∈ ts, Ended (r.slots.slot term.1 term.2)
        (fun s => r.slots.slot? term.1 term.2 = some s)
        fun _ => ∃ root ∈ roots, ¬ ∃ slots, Listed a r root slots := by
      intro term ht
      rw [SlotTable.slot]
      cases found : r.slots.slot? term.1 term.2 with
      | some s => rfl
      | none =>
        refine ⟨root, hr, ?_⟩
        rintro ⟨slots, ts', known', slotted⟩
        obtain rfl : ts = ts' := Except.ok.inj (known.symm.trans known')
        obtain ⟨s, -, slot⟩ := exists_mem_of_forall₂_left slotted ht
        cases found.symm.trans slot
    exact (Ended.mapM each).mono (fun slots all => ⟨ts, known, all⟩) fun _ => id
  · intro e failed
    refine ⟨root, hr, ?_⟩
    rintro ⟨slots, ts, known, -⟩
    cases failed.symm.trans known

/-- Sorting succeeds if all terms have slots and the conditions can be paired with these, and
    then each condition fixes the slot at its place. -/
theorem sort_ended (location : Float) (endpoint : Endpoint) :
    Ended (sort a roots r r.slots location endpoint)
      (fun sorted => Sorts a r roots location endpoint sorted ∧
        (∀ root ∈ roots, ∃ slots, Listed a r root slots) ∧ ∃ pairs, Perfect a r roots pairs)
      fun _ => ¬ ((∀ root ∈ roots, ∃ slots, Listed a r root slots) ∧
        ∃ pairs, Perfect a r roots pairs) := by
  cases found : candidates a r r.slots roots with
  | error e =>
    obtain ⟨root, hr, none⟩ := candidates_ended.of_error found
    rw [sort, found]
    exact fun known => none (known.1 root hr)
  | ok slots =>
    have listed := candidates_ended.of_ok found
    apply (sort_listed listed found location endpoint).mono
    · rintro sorted ⟨sorts, perfect⟩
      refine ⟨sorts, ?_, perfect⟩
      intro root hr
      obtain ⟨ss, -, known⟩ := exists_mem_of_forall₂_left listed hr
      exact ⟨ss, known⟩
    · exact fun e defect known => defect.not_perfect known.2

section

variable {location : Float} {endpoint : Endpoint} {sorted : SortedConditions}
  (run : sort a roots r r.slots location endpoint = .ok sorted)
include run

/-- Sorted conditions are the given ones in the order of the slots. -/
theorem handles_of_sort : (sorted.conditions.map Condition.handle).Perm roots := by
  have sorts := ((sort_ended location endpoint).of_ok run).1
  -- their indices are a permutation of all places
  have handles : sorted.conditions.map Condition.handle =
      (sorted.conditions.map Condition.index).map fun i => roots[i]?.getD 0 := by
    rw [List.map_map]
    refine List.map_congr_left fun c hc => ?_
    obtain ⟨s, stored⟩ := List.getElem?_of_mem hc
    obtain ⟨-, -, -, given⟩ := sorts.fixes s c stored
    show c.handle = roots[c.index]?.getD 0
    rw [given, Option.getD_some]
  have all : (List.range roots.length).map (fun i => roots[i]?.getD 0) = roots := by
    refine List.ext_getElem (by simp) fun i hi hi' => ?_
    simp [hi']
  rw [handles]
  exact (sorts.permutation.map _).trans (List.Perm.of_eq all)

/-- They are stored, or their terms could not have been listed. -/
theorem stored_of_sort : ∀ c ∈ sorted.conditions, c.handle < a.count := by
  intro c hc
  have mem := (handles_of_sort run).mem_iff.mp (List.mem_map_of_mem hc)
  obtain ⟨slots, ts, known, -⟩ := ((sort_ended location endpoint).of_ok run).2.1 _ mem
  have termed : Termed a r c.handle ts := (terms_termed c.handle).of_ok known
  exact termed.inside

end

end Conditions

/-! ## The components of a residual -/

namespace InitialState

variable {a b : Arena} {r : Registry} {f : Value → Value} {K : Type}

/-- A condition with state entries, and with stored values for their keys. -/
def form (r : Registry) (f : Value → Value) (t : Tree) : Tree :=
  ((t.substitute r r.slots).getD t).mapValues f

/-- The component of a condition at a time and a state. -/
def component (a : Arena) (r : Registry) (f : Value → Value) (E : Evaluation K) (t : K) (h : Nat)
    (x : List K) : K :=
  E.result ((form r f (a.expression h)).denote
    ((E.meaning t fun s => x[s.toNat]?.getD t).readingSlots Program.ownSlot))

/-- Over exact arithmetic a component is the value of the condition on state entries. -/
theorem component_exact {h : Nat} {t' : Tree}
    (substituted : (a.expression h).substitute r r.slots = some t')
    (restored : ∀ v, f v = v ∨ (f v).key = v) {value : Value → K → K} {unary : UnaryOp → K → K}
    {binary : BinaryOp → K → K → K} (key : ∀ v, value v.key = value v) (t : K) (x : List K) :
    component a r f (.exact value unary binary) t h x =
      t'.denote (((Evaluation.exact value unary binary).meaning t fun s =>
        x[s.toNat]?.getD t).readingSlots Program.ownSlot) := by
  rw [component, form, substituted]
  exact Tree.denote_mapValues
    (fun v => congrFun (Arena.value_of_restored restored key v) t) t'

/-- What has been made of a condition is its form. -/
theorem form_of_makes (wf : a.WellFormed) (restores : a.Restores f) (grown : a.Extends b) {h : Nat}
    (inside : h < a.count) {t : Tree} (substituted : (a.expression h).substitute r r.slots = some t)
    {p : Nat} {c : Arena} (made : b.Makes t p c) : c.tree p = form r f (a.expression h) := by
  rw [form, substituted, Option.getD_some]
  exact (restores.mapValues_substituted wf inside substituted (made.after grown)).symm

/-- A residual has a component for each slot. -/
theorem size_residualField {conditions : SortedConditions} {slots : SlotTable} {g : VectorField}
    (made : residualField conditions r slots a = .ok g b) : g.size = slots.size := by
  have sized : Ends (residualField conditions r slots) a (fun g _ => g.size = slots.size)
      fun _ _ => True := by
    unfold residualField
    refine Ends.bind (Ends.intro ?_ fun _ _ _ => trivial)
    intro roots b _
    apply Ends.bind
    apply Ends.get
    apply Ends.ofExcept
    exact Ended.intro (fun g => VectorField.size_of_trees) fun _ _ => trivial
  exact sized.of_ok made

/-- The residual is made of the forms of the conditions, in their order. -/
theorem residualField_trees (wf : a.WellFormed) (restores : a.Restores f)
    {conditions : SortedConditions} (inside : ∀ c ∈ conditions.conditions, c.handle < a.count) :
    Ends (residualField conditions r r.slots) a
      (fun g b => ∃ roots, (∀ p ∈ roots, p < b.count) ∧
        (do VectorField.create (← Program.ofTrees b roots) r.slots.size) = Except.ok g ∧
        roots.map b.tree =
          (conditions.conditions.map Condition.handle).map fun h => form r f (a.expression h))
      fun _ _ => True := by
  have inside : ∀ h ∈ conditions.conditions.map Condition.handle, h < a.count := by
    intro h hh
    obtain ⟨c, hc, rfl⟩ := List.mem_map.mp hh
    exact inside c hc
  -- the conditions that have been substituted in so far
  have pass : Ends ((conditions.conditions.map Condition.handle).mapM
      (Substitute.root r r.slots) ∅) a
      (fun q b => (b.WellFormed ∧ a.Extends b ∧
        Arena.Remembers (Tree.substitute r r.slots) q.2 b) ∧ (∀ p ∈ q.1, p < b.count) ∧
        q.1.map b.tree =
          (conditions.conditions.map Condition.handle).map fun h => form r f (a.expression h))
      fun _ _ => True := by
    apply Ends.mapMState (fun before (q : List Nat × Substitute.Memo) b =>
      (b.WellFormed ∧ a.Extends b ∧ Arena.Remembers (Tree.substitute r r.slots) q.2 b) ∧
        (∀ p ∈ q.1, p < b.count) ∧
        q.1.map b.tree = before.map fun h => form r f (a.expression h))
    · exact ⟨⟨wf, Arena.Extends.refl a, Arena.remembers_empty⟩, by simp, rfl⟩
    · rintro before h after ps memo b eq ⟨⟨wf', grown, remembers⟩, stored, formed⟩
      have here : h < a.count := inside h (by simp [eq])
      apply (Substitute.root_ends wf' (grown.lt_count here) remembers).mono ?_ fun _ _ _ => trivial
      rintro ⟨p, memo'⟩ c ⟨⟨t, substituted, made⟩, remembers'⟩
      rw [grown.expression wf here] at substituted
      refine ⟨⟨made.wellFormed, grown.trans made.grown, remembers'⟩, ?_, ?_⟩
      · intro q hq
        rcases List.mem_append.mp hq with hq | hq
        · exact made.grown.lt_count (stored q hq)
        · exact List.mem_singleton.mp hq ▸ made.inside
      · have old : ps.map c.tree = ps.map b.tree :=
          List.map_congr_left fun q hq => made.grown.tree wf' (stored q hq)
        rw [List.map_append, List.map_append, old, formed]
        exact congrArg (_ ++ [·]) (form_of_makes wf restores grown here substituted made)
  unfold residualField
  apply Ends.bind
  apply Ends.map
  apply pass.weaken
  rintro ⟨roots, memo⟩ b ⟨-, stored, formed⟩
  apply Ends.bind
  apply Ends.get
  apply Ends.ofExcept
  exact Ended.intro (fun g created => ⟨roots, stored, created, formed⟩) fun _ _ => trivial

/-- The residual of sorted conditions has one component for each of them, in their order. -/
theorem residualField_components (wf : a.WellFormed) (restores : a.Restores f)
    {conditions : SortedConditions} (inside : ∀ c ∈ conditions.conditions, c.handle < a.count) :
    Ends (residualField conditions r r.slots) a
      (fun g _ => g.size = r.slots.size ∧ ∀ (K : Type) (E : Evaluation K) (t : K),
        Componentwise (g.eval E t) ((conditions.conditions.map Condition.handle).map fun h x =>
          component a r f E t h x.toList))
      fun _ _ => True := by
  apply (residualField_trees wf restores inside).weaken
  rintro g b ⟨roots, stored, created, formed⟩
  refine ⟨VectorField.size_of_trees created, fun K E t x => ?_⟩
  have values := congrArg (List.map fun u => E.result (u.denote
    ((E.meaning t fun s => x.toList[s.toNat]?.getD t).readingSlots Program.ownSlot))) formed
  rw [List.map_map, List.map_map] at values
  rw [VectorField.toList_eval stored created, List.map_map]
  exact values

/-! ## The search for a state -/

section

variable [Zero K] [One K] [Neg K] [Add K] [Sub K] [Mul K] [Div K] [LT K] [DecidableLT K] [LE K]
  [DecidableLE K]

/-- Where the search for a zero of a residual ends, over any scalar.  Without a guess it starts
    from zero. -/
def search (E : Evaluation K) (N : Numerics K) (settings : NewtonSettings K) (t : K)
    (guess : Option (List K)) (g : VectorField) : NewtonState (Vector K g.size) :=
  let start := guess.getD (List.replicate g.size 0)
  solve N settings (g.eval E) t (Vector.ofFn fun i => start[i.1]?.getD 0)

end

/-- The state that is found with doubles is where this search ends. -/
theorem find_eq (conditions : SortedConditions) (r : Registry) (slots : SlotTable)
    (options : ReductionOptions) (guess : Option (List Float)) :
    find conditions r slots options guess = (do
      let g ← residualField conditions r slots
      let start := guess.getD (List.replicate slots.size 0)
      MonadExcept.ofExcept (g.check [start.length])
      let settings : NewtonSettings Float :=
        ⟨options.conditionTolerance, options.conditionIterations⟩
      let last := search .double .double settings conditions.location (some start) g
      return (last.point.toList, Newton.failed settings Numerics.double.norm last)) :=
  rfl

variable [Field K] [LinearOrder K] {E : Evaluation K} {N : Numerics K}

end InitialState

end JetForm
