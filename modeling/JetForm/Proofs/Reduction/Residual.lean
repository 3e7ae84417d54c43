import JetForm.Proofs.Reduction.Entries
import JetForm.Proofs.Reduction.Sorting
import JetForm.Reduction.InitialState

/-! # The residual of sorted conditions

    Sorting never looks up a missing slot if all unknowns are part of the state.
    Once it has returned, every condition has a form with state entries, so the
    conditions in normal form make a residual without further failures. -/

namespace JetForm

variable {a b : Arena} {r : Registry}

namespace Conditions

/-- No unknown that is left out of the state occurs in a condition. -/
theorem Stateless.not_covered (wf : a.WellFormed) (covers : r.Covers a.size) {root var : Nat}
    (inside : root < a.count) : ¬ Stateless a r root var := by
  rintro ⟨part, low⟩
  obtain ⟨g, reach, expression⟩ := (Arena.mem_parts_expression inside).mp part
  have stored := Arena.node?_of_leaf (reach.lt_count inside) expression
  have admissible : var < a.size := wf.admissible g _ stored
  obtain ⟨n, known, positive⟩ := covers var admissible
  have := low n known
  omega

/-- All terms have slots. -/
theorem candidates_early (wf : a.WellFormed) (covers : r.Covers a.size) (roots : List Nat) :
    Ended (candidates a r r.slots roots) (fun _ => True) fun e => e.isLate = false := by
  have each : ∀ root ∈ roots, Ended (do
      (← terms a r root).mapM fun (term : Nat × Nat) => r.slots.slot term.1 term.2)
      (fun _ => True) fun e => e.isLate = false := by
    intro root _
    apply Ended.bind
    apply Ended.intro
    · intro ts known
      have termed : Termed a r root ts := (terms_termed root).of_ok known
      -- a term without a slot would be an unknown that is no part of the state
      have found : ∀ term ∈ ts, Ended (r.slots.slot term.1 term.2) (fun _ => True)
          fun e => e.isLate = false := by
        intro term mem
        rw [SlotTable.slot]
        cases slot : r.slots.slot? term.1 term.2 with
        | some s => exact trivial
        | none =>
          have stateless := (stateless_of_slot known mem slot).2
          exact absurd stateless (Stateless.not_covered wf covers termed.inside)
      exact (Ended.mapM found).mono (fun _ _ => trivial) fun _ => id
    · exact fun e failed => (terms_termed root).of_error failed
  exact (Ended.mapM each).mono (fun _ _ => trivial) fun _ => id

/-- A defect is a slot or a condition that is left over. -/
theorem defect_early {count : Nat} {slots : SlotTable} {candidates : List (List Nat)}
    {m : Matching} {e : Error} (found : defect count slots candidates m = some e) :
    e.isLate = false := by
  rw [defect] at found
  split at found
  next =>
    cases found
    rfl
  next =>
    split at found
    next => cases found
    next =>
      cases found
      rfl

/-- Sorting fails on the conditions themselves, never on a slot that is missing. -/
theorem sort_early (wf : a.WellFormed) (covers : r.Covers a.size) (roots : List Nat)
    (location : Float) (endpoint : Endpoint) :
    Ended (sort a roots r r.slots location endpoint) (fun _ => True)
      fun e => e.isLate = false := by
  apply Ended.bind
  apply (candidates_early wf covers roots).mono ?_ fun _ => id
  intro slots _
  dsimp only
  split
  next e found => exact defect_early found
  next => exact trivial

end Conditions

/-! ## The residual -/

/-- A condition in normal form that has a form with state entries. -/
structure Conditions.Ready (r : Registry) (a : Arena) (h : Nat) : Prop where
  inside : h < a.count
  normal : (a.expression h).isNormal = true
  repeatable : a.Repeatable h
  substitute : ∃ t, (a.expression h).substitute r r.slots = some t

theorem Conditions.Ready.grow {h : Nat} (ready : Conditions.Ready r a h) (wf : a.WellFormed)
    (grown : a.Extends b) : Conditions.Ready r b h := by
  have same := grown.expression wf ready.inside
  exact ⟨grown.lt_count ready.inside, same ▸ ready.normal,
    ready.repeatable.grow wf grown ready.inside, same ▸ ready.substitute⟩

/-- Such conditions make a residual, one for each slot. -/
theorem InitialState.residualField_total (wf : a.WellFormed) {conditions : SortedConditions}
    (length : conditions.conditions.length = r.slots.size)
    (ready : ∀ c ∈ conditions.conditions, Conditions.Ready r a c.handle) :
    Ends (residualField conditions r r.slots) a
      (fun g _ => g.size = r.slots.size) fun _ _ => False := by
  have ready : ∀ h ∈ conditions.conditions.map Condition.handle, Conditions.Ready r a h := by
    intro h hh
    obtain ⟨c, hc, rfl⟩ := List.mem_map.mp hh
    exact ready c hc
  -- the components that have been substituted in so far
  have pass : Ends ((conditions.conditions.map Condition.handle).mapM
      (Substitute.root r r.slots) ∅) a
      (fun q b => (b.WellFormed ∧ a.Extends b ∧
        Arena.Remembers (Tree.substitute r r.slots) q.2 b) ∧
        q.1.length = (conditions.conditions.map Condition.handle).length ∧
        ∀ p ∈ q.1, p < b.count ∧ (b.expression p).lowered r.slots.size = true)
      fun _ _ => False := by
    apply Ends.mapMState (fun before (q : List Nat × Substitute.Memo) b =>
      (b.WellFormed ∧ a.Extends b ∧ Arena.Remembers (Tree.substitute r r.slots) q.2 b) ∧
        q.1.length = before.length ∧
        ∀ p ∈ q.1, p < b.count ∧ (b.expression p).lowered r.slots.size = true)
    · exact ⟨⟨wf, Arena.Extends.refl a, Arena.remembers_empty⟩, rfl, by simp⟩
    · rintro before h after ps memo b eq ⟨⟨wf', grown, remembers⟩, count, low⟩
      have here := (ready h (by simp [eq])).grow wf grown
      obtain ⟨t', substituted⟩ := here.substitute
      apply ((Substitute.root_ends wf' here.inside remembers).and
        (Substitute.root_exact wf' here.inside remembers)).mono
      · rintro ⟨p, memo'⟩ c ⟨⟨⟨t, eq, made⟩, remembers'⟩, -⟩
        refine ⟨⟨made.wellFormed, grown.trans made.grown, remembers'⟩, by simp [count], ?_⟩
        intro q hq
        rcases List.mem_append.mp hq with hq | hq
        · obtain ⟨inside, known⟩ := low q hq
          exact ⟨made.grown.lt_count inside, by rwa [made.grown.expression wf' inside]⟩
        · obtain rfl := List.mem_singleton.mp hq
          refine ⟨made.inside, ?_⟩
          rw [made.expression]
          exact Tree.lowered_substitute eq here.normal
      · -- both reasons to refuse a condition are excluded
        rintro e c ⟨-, none | refused, -⟩
        · rw [substituted] at none
          cases none
        · exact refused here.repeatable
  unfold residualField
  apply Ends.bind
  apply Ends.map
  apply pass.weaken
  rintro ⟨roots, memo⟩ b ⟨⟨wf', -, -⟩, count, low⟩
  apply Ends.bind
  apply Ends.get
  have size : roots.length = r.slots.size := by
    rw [count, List.length_map, length]
  obtain ⟨f, created, same⟩ := VectorField.exists_of_lowered size (fun p hp => (low p hp).1)
    fun p hp => (low p hp).2
  dsimp only
  rw [created]
  exact same

/-- Sorted conditions in normal form make a residual. -/
theorem InitialState.residualField_of_sort (wf : a.WellFormed) {roots : List Nat}
    (ready : ∀ root ∈ roots,
      root < a.count ∧ (a.expression root).isNormal = true ∧ a.Repeatable root)
    {location : Float} {endpoint : Endpoint} {sorted : SortedConditions}
    (run : Conditions.sort a roots r r.slots location endpoint = .ok sorted) :
    Ends (residualField sorted r r.slots) a (fun g _ => g.size = r.slots.size)
      fun _ _ => False := by
  apply residualField_total wf (Conditions.length_of_sort run)
  intro c hc
  obtain ⟨s, fixes⟩ := Conditions.fixes_of_mem_sort run hc
  obtain ⟨inside, normal, repeatable⟩ := ready c.handle (List.mem_of_getElem? fixes.given)
  exact ⟨inside, normal, repeatable, fixes.exists_substitute⟩

end JetForm
