import JetForm.Proofs.Reduction.ConditionOrder
import JetForm.Proofs.Reduction.Orders
import JetForm.Proofs.Reduction.Stages
import JetForm.Proofs.Trace.Recording

/-! # Numbers as conditions

    Numbers that are given in place of conditions become conditions themselves:
    a state entry minus its number, one for each slot and in the order of the
    slots.  They are in normal form as soon as they are traced.

    Such a condition mentions the entry that it is about, and besides that only
    the unknown of which the entry is a derivative.  So sorting has no choice.  A
    condition that was given the slot of its unknown would leave its own slot to
    a condition that has none other to give away. -/

namespace JetForm

/-- The condition that a derivative of an unknown has the given value. -/
def Tree.valueCondition (var order : Nat) (n : Number) : Tree :=
  .treeValue .minus ((Tree.leaf var).differentiated order) (Value.number n).key

namespace Tree

variable {var order : Nat} {n : Number}

/-- Such a condition mentions the derivative and the unknown. -/
theorem isTerm_valueCondition {term : Nat × Nat} :
    (∃ p ∈ (valueCondition var order n).parts, p.IsTerm term) ↔
      term = (var, order) ∨ term = (var, 0) := by
  obtain ⟨v, k⟩ := term
  unfold valueCondition differentiated
  by_cases zero : order = 0
  · subst zero
    simp [parts, IsTerm, eq_comm]
  · rw [if_neg zero]
    simp [parts, IsTerm, eq_comm]

/-- It has no derivative but this one. -/
theorem derivative_mem_valueCondition {c : Tree} {k : Nat}
    (part : .derivative c k ∈ (valueCondition var order n).parts) :
    c = .leaf var ∧ k = order := by
  unfold valueCondition differentiated at part
  by_cases zero : order = 0
  · subst zero
    simp [parts] at part
  · rw [if_neg zero] at part
    simpa [parts] using part

theorem onUnknowns_valueCondition : (valueCondition var order n).OnUnknowns :=
  fun _ _ part => ⟨var, (derivative_mem_valueCondition part).1⟩

theorem solid_valueCondition : (valueCondition var order n).solid = true := by
  unfold valueCondition differentiated
  split <;> rfl

theorem isNormal_valueCondition : (valueCondition var order n).isNormal = true := by
  unfold valueCondition differentiated
  split <;> rfl

/-- With state entries in place it is the difference of an entry and the number. -/
theorem substitute_valueCondition {r : Registry} {s : Nat}
    (slot : r.slots.slot? var order = some s) :
    (valueCondition var order n).substitute r r.slots =
      some (.treeValue .minus (.slot s var order) (Value.number n).key) := by
  obtain ⟨m, known, below, rfl⟩ := Registry.exists_of_slot? slot
  have entry : ∀ k < m.toNat, Tree.entry r.slots var k = some (.slot (r.start var + k) var k) := by
    intro k hk
    rw [Tree.entry, Registry.slot?_eq known hk]
    rfl
  unfold valueCondition differentiated
  by_cases zero : order = 0
  · subst zero
    exact congrArg (Option.map _) (entry 0 below)
  · have first := entry 0 (Nat.zero_lt_of_lt below)
    have derivative : derivativeEntry r r.slots order (.leaf var) =
        some (.slot (r.start var + order) var order) := by
      rw [derivativeEntry, known, Option.bind_some, if_neg (by omega), entry order below]
    rw [if_neg zero]
    show ((Tree.entry r.slots var 0).bind fun _ =>
      derivativeEntry r r.slots order (.leaf var)).map _ = _
    rw [first, Option.bind_some, derivative]
    rfl

end Tree

/-! ## Tracing -/

namespace FirstOrder

variable {w : Workspace} {p : TracedProblem} {given : Domain Float}

/-- A condition is traced for an unknown that there is. -/
theorem valueCondition_ends (wf : w.WellFormed) (leaves : p.HasLeaves given w) {var order : Nat}
    (below : var < p.names.length) {n : Number} (real : n.isReal = true) :
    Ends (valueCondition p.unknowns (var, order) (.number n)) w
      (fun es w' => w.Grows w' ∧ ∃ e, es = [e] ∧ e.Is (.valueCondition var order n) given w' ∧
        e.arena = p.arena) fun _ _ => False := by
  have listed : (List.range p.names.length)[var]? = some var := List.getElem?_range below
  obtain ⟨u, found, is, place⟩ := exists_of_forall₂_left leaves listed
  unfold valueCondition
  dsimp only
  rw [Int.toNat_natCast, found]
  apply Ends.bind
  apply (Traced.diff_ends wf is order).weaken
  rintro d w₁ ⟨grown, derivative, same⟩
  apply Ends.bind
  apply (Expression.minus_ends grown.after derivative real).weaken
  rintro e w₂ ⟨grown', difference, same'⟩
  exact Ends.pure ⟨grown.trans grown', e, rfl, difference, same'.trans (same.trans place)⟩

/-- Lists of one entry each are one list. -/
theorem forall₂_flatten {α β : Type} {R : α → β → Prop} {xs : List α} {ls : List (List β)}
    (related : List.Forall₂ (fun x l => ∃ y, l = [y] ∧ R x y) xs ls) :
    List.Forall₂ R xs ls.flatten := by
  induction related with
  | nil => exact .nil
  | cons first _ ih =>
    obtain ⟨y, rfl, known⟩ := first
    exact .cons known ih

/-- The expression is the condition that a slot has a value. -/
def Poses (p : TracedProblem) (given : Domain Float) (w : Workspace) (entry : (Int × Int) × Number)
    (e : Traced) : Prop :=
  e.Is (.valueCondition entry.1.1.toNat entry.1.2.toNat entry.2) given w ∧ e.arena = p.arena

/-- There is a condition for each slot. -/
theorem conditionTrees_values (wf : w.WellFormed) (leaves : p.HasLeaves given w) {r : Registry}
    (size : r.size = p.names.length) {ns : List Number} (real : ∀ n ∈ ns, n.isReal = true)
    (length : ns.length = r.slots.size) :
    Ends (conditionTrees p r.slots (.values (ns.map .number))) w
      (fun es w' => w.Grows w' ∧ List.Forall₂ (Poses p given w') (r.slots.keys.zip ns) es)
      fun _ _ => False := by
  have numbers : (ns.map Operand.number).all (·.realNumber?.isSome) = true := by
    rw [List.all_map, List.all_eq_true]
    intro n hn
    show (if n.isReal = true then some n else none).isSome = true
    rw [if_pos (real n hn)]
    rfl
  have each : Ends ((r.slots.keys.zip ns).mapM fun entry =>
      valueCondition p.unknowns entry.1 (.number entry.2)) w
      (fun ls w' => w.Grows w' ∧ List.Forall₂
        (fun entry l => ∃ e, l = [e] ∧ Poses p given w' entry e) (r.slots.keys.zip ns) ls)
      fun _ _ => False := by
    apply Ends.mapM (fun before ls w' => w.Grows w' ∧ List.Forall₂
      (fun entry l => ∃ e, l = [e] ∧ Poses p given w' entry e) before ls)
    · exact ⟨.refl wf, .nil⟩
    · rintro before ⟨key, n⟩ after ls w' eq ⟨grown, related⟩
      have listed : (key, n) ∈ r.slots.keys.zip ns := by simp [eq]
      obtain ⟨hkey, hn⟩ := List.of_mem_zip listed
      -- the key is that of a derivative of an unknown
      obtain ⟨s, stored⟩ := List.getElem?_of_mem hkey
      obtain ⟨var, m, order, known, below, rfl⟩ :=
        Registry.exists_of_lt_slots (r := r) (List.getElem?_eq_some_iff.mp stored).1
      rw [Registry.keys_slots known below] at stored
      obtain rfl := Option.some.inj stored
      have inside : var < p.names.length := size ▸ (List.getElem?_eq_some_iff.mp known).1
      -- the expressions that have been traced before stay what they are
      apply (valueCondition_ends grown.after (leaves.grow grown) inside (real n hn)).weaken
      rintro l w'' ⟨grown', e, rfl, is, place⟩
      refine ⟨grown.trans grown', List.rel_append (related.imp ?_) (.cons ⟨e, rfl, is, place⟩ .nil)⟩
      rintro entry l ⟨e, rfl, is, place⟩
      exact ⟨e, rfl, is.grow grown', place⟩
  unfold conditionTrees
  dsimp only
  rw [numbers, List.length_map, List.zip_map_right, List.mapM_map]
  rw [if_neg (by simp), if_neg (by simp [length])]
  apply Ends.map
  apply each.weaken
  exact fun ls w' known => ⟨known.1, forall₂_flatten known.2⟩

/-- The condition at a slot poses the number that is given there. -/
theorem exists_pose {slots : SlotTable} {ns : List Number} {es : List Traced}
    (length : ns.length = slots.size)
    (poses : List.Forall₂ (Poses p given w) (slots.keys.zip ns) es) {var order : Int} {s : Nat}
    (slot : slots.slot? var order = some s) :
    ∃ e n, es[s]? = some e ∧ ns[s]? = some n ∧ Poses p given w ((var, order), n) e := by
  have stored := SlotTable.slot?_eq_some_iff.mp slot
  have below : s < ns.length := length ▸ (List.getElem?_eq_some_iff.mp stored).1
  have listed : (slots.keys.zip ns)[s]? = some ((var, order), ns[s]) := by
    rw [List.getElem?_zip_eq_some]
    exact ⟨stored, List.getElem?_eq_getElem below⟩
  obtain ⟨e, found, posed⟩ := exists_of_forall₂_left poses listed
  exact ⟨e, ns[s], found, List.getElem?_eq_getElem below, posed⟩

end FirstOrder

/-! ## Sorting -/

namespace Conditions

open Matching

variable {a b : Arena} {r : Registry} {ns : List Number} {hs : List Nat}

/-- The trees are the conditions that the state entries have the given values. -/
structure AreValues (a : Arena) (r : Registry) (ns : List Number) (hs : List Nat) : Prop where
  length : hs.length = r.slots.size
  poses : ∀ var order s : Nat, r.slots.slot? var order = some s → ∃ h n, hs[s]? = some h ∧
    ns[s]? = some n ∧ h < a.count ∧ a.expression h = .valueCondition var order n

/-- Every tree is such a condition. -/
theorem AreValues.exists_slot (values : AreValues a r ns hs) {s h : Nat}
    (listed : hs[s]? = some h) : ∃ var order n, r.slots.slot? (var : Nat) (order : Nat) = some s ∧
      ns[s]? = some n ∧ h < a.count ∧ a.expression h = .valueCondition var order n := by
  have below := (List.getElem?_eq_some_iff.mp listed).1
  rw [values.length] at below
  obtain ⟨var, m, order, known, inside, rfl⟩ := Registry.exists_of_lt_slots below
  have slot := Registry.slot?_eq known inside
  obtain ⟨h', n, listed', number, stored, same⟩ := values.poses var order _ slot
  obtain rfl : h = h' := Option.some.inj (listed.symm.trans listed')
  exact ⟨var, order, n, slot, number, stored, same⟩

/-- What has been traced for the slots are these conditions. -/
theorem areValues_of_poses {p : TracedProblem} {given : Domain Float} {w : Workspace}
    {es : List Traced} (length : ns.length = r.slots.size)
    (poses : List.Forall₂ (FirstOrder.Poses p given w) (r.slots.keys.zip ns) es) :
    AreValues (w.arena p.arena) r ns (es.map Traced.handle) := by
  refine ⟨?_, ?_⟩
  · rw [List.length_map, ← poses.length_eq, List.length_zip, length]
    exact Nat.min_self _
  · intro var order s slot
    obtain ⟨e, n, found, number, is, place⟩ := FirstOrder.exists_pose length poses slot
    refine ⟨e.handle, n, ?_, number, place ▸ is.inside, place ▸ is.fits.1⟩
    rw [List.getElem?_map, found]
    rfl

theorem AreValues.grow (values : AreValues a r ns hs) (wf : a.WellFormed) (grown : a.Extends b) :
    AreValues b r ns hs := by
  refine ⟨values.length, ?_⟩
  intro var order s slot
  obtain ⟨h, n, listed, number, inside, same⟩ := values.poses var order s slot
  exact ⟨h, n, listed, number, grown.lt_count inside, (grown.expression wf inside).trans same⟩

theorem AreValues.inside (values : AreValues a r ns hs) : ∀ h ∈ hs, h < a.count := by
  intro h hh
  obtain ⟨s, listed⟩ := List.getElem?_of_mem hh
  obtain ⟨-, -, -, -, -, below, -⟩ := values.exists_slot listed
  exact below

/-- Nothing has to be normalised. -/
theorem AreValues.settled (values : AreValues a r ns hs) (wf : a.WellFormed) :
    ∀ h ∈ hs, Normalize.Settled a h := by
  intro h hh
  obtain ⟨s, listed⟩ := List.getElem?_of_mem hh
  obtain ⟨var, order, n, -, -, inside, same⟩ := values.exists_slot listed
  refine ⟨inside, ?_, ?_⟩
  · rw [same]
    exact Tree.onUnknowns_valueCondition
  · rw [Arena.repeatable_iff wf inside, same]
    exact Tree.solid_valueCondition

/-- They can stand in a residual. -/
theorem AreValues.ready (values : AreValues a r ns hs) (wf : a.WellFormed) : ∀ h ∈ hs,
    h < a.count ∧ (a.expression h).isNormal = true ∧ a.Repeatable h := by
  intro h hh
  obtain ⟨s, listed⟩ := List.getElem?_of_mem hh
  obtain ⟨var, order, n, -, -, inside, same⟩ := values.exists_slot listed
  refine ⟨inside, ?_, (values.settled wf h hh).repeatable⟩
  rw [same]
  exact Tree.isNormal_valueCondition

/-- The terms of a tree can be listed if its derivatives are below the orders of unknowns. -/
theorem exists_terms {root : Nat} (inside : root < a.count)
    (lower : ∀ (c : Tree) (k : Nat), .derivative c k ∈ (a.expression root).parts →
      ∃ var n, c = .leaf var ∧ r.orders[var]? = some n ∧ ¬ n ≤ (k : Int)) :
    ∃ ts, terms a r root = .ok ts ∧ Termed a r root ts := by
  have roots : ∀ h ∈ [root], h < a.count := by simpa using inside
  have handles : a.requireNodes [root] = .ok () := Arena.requireNodes_eq_ok.mpr roots
  have swept : Ended (a.sweepM [root] [] fun terms _ node => meet a r terms node) (fun _ => True)
      fun _ => False := by
    apply Arena.ended_sweep roots (fun _ _ => True) trivial
    intro before h node ts turn _
    cases node with
    | leaf | independent | constant | slot | unary | binary => trivial
    | derivative c k =>
      have part : Tree.derivative (a.expression c) k ∈ (a.expression root).parts :=
        (Arena.mem_parts_expression inside).mpr ⟨h, turn.reaches, Arena.expression_eq turn.stored⟩
      obtain ⟨var, n, leaf, known, above⟩ := lower _ k part
      have below := a.child_lt h _ turn.stored c (by simp [Node.children])
      have unknown :=
        Arena.node?_of_leaf (Nat.lt_trans below (Arena.lt_count turn.stored)) leaf
      rw [meet, unknown]
      dsimp only
      rw [Registry.order, known]
      show Ended (if n ≤ (k : Int) then _ else _) _ _
      rw [if_neg above]
      trivial
  -- the root is stored, so nothing but the sweep is left
  have listed : terms a r root = a.sweepM [root] [] fun terms _ node => meet a r terms node := by
    rw [terms, handles]
    rfl
  cases run : terms a r root with
  | error e => exact (swept.of_error (listed.symm.trans run)).elim
  | ok ts => exact ⟨ts, rfl, (terms_termed root).of_ok run⟩

/-- The terms of such a condition are the derivative and the unknown. -/
theorem AreValues.terms (values : AreValues a r ns hs) {var order s : Nat}
    (slot : r.slots.slot? var order = some s) : ∃ h ts, hs[s]? = some h ∧
      Conditions.terms a r h = .ok ts ∧
        ∀ term, term ∈ ts ↔ term = (var, order) ∨ term = (var, 0) := by
  obtain ⟨h, n, listed, -, inside, same⟩ := values.poses var order s slot
  obtain ⟨m, known, below, -⟩ := Registry.exists_of_slot? slot
  have lower : ∀ (c : Tree) (k : Nat), .derivative c k ∈ (a.expression h).parts →
      ∃ var n, c = .leaf var ∧ r.orders[var]? = some n ∧ ¬ n ≤ (k : Int) := by
    intro c k part
    rw [same] at part
    obtain ⟨rfl, rfl⟩ := Tree.derivative_mem_valueCondition part
    exact ⟨var, m, rfl, known, by omega⟩
  obtain ⟨ts, run, termed⟩ := exists_terms inside lower
  refine ⟨h, ts, listed, run, fun term => ?_⟩
  rw [termed.terms, same, Tree.isTerm_valueCondition]

/-- A condition may fix its own slot and that of its unknown. -/
theorem AreValues.mayFix_iff (values : AreValues a r ns hs) {c s : Nat} :
    MayFix a r hs c s ↔ ∃ var order : Nat, r.slots.slot? var order = some c ∧
      (s = c ∨ r.slots.slot? var (0 : Nat) = some s) := by
  constructor
  · rintro ⟨root, ts, term, given, run, mem, slot⟩
    obtain ⟨var, order, n, own, -⟩ := values.exists_slot given
    obtain ⟨h, ts', given', run', iff⟩ := values.terms own
    obtain rfl : root = h := Option.some.inj (given.symm.trans given')
    obtain rfl : ts = ts' := Except.ok.inj (run.symm.trans run')
    refine ⟨var, order, own, ?_⟩
    rcases (iff term).mp mem with rfl | rfl
    · exact Or.inl (Option.some.inj (slot.symm.trans own))
    · exact Or.inr slot
  · rintro ⟨var, order, own, same | unknown⟩
    · obtain ⟨h, ts, given, run, iff⟩ := values.terms own
      exact ⟨h, ts, (var, order), given, run, (iff _).mpr (Or.inl rfl), same ▸ own⟩
    · obtain ⟨h, ts, given, run, iff⟩ := values.terms own
      exact ⟨h, ts, (var, 0), given, run, (iff _).mpr (Or.inr rfl), unknown⟩

/-- Each condition can be paired with its own slot. -/
theorem AreValues.perfect (values : AreValues a r ns hs) :
    Perfect a r hs ((Finset.range r.slots.size).image fun s => (s, s)) := by
  have mem : ∀ {q : Nat × Nat}, q ∈ (Finset.range r.slots.size).image (fun s => (s, s)) →
      q.1 < r.slots.size ∧ q.1 = q.2 := by
    intro q hq
    obtain ⟨s, hs, rfl⟩ := Finset.mem_image.mp hq
    exact ⟨Finset.mem_range.mp hs, rfl⟩
  have pair : ∀ s < r.slots.size, (s, s) ∈ (Finset.range r.slots.size).image fun s => (s, s) :=
    fun s below => Finset.mem_image.mpr ⟨s, Finset.mem_range.mpr below, rfl⟩
  -- the pairs are those of the identity
  refine ⟨⟨?_, ?_, ?_⟩, ?_, fun s below => ⟨s, pair s below⟩⟩
  · intro q hq
    obtain ⟨below, same⟩ := mem hq
    obtain ⟨var, m, order, known, inside, eq⟩ := Registry.exists_of_lt_slots below
    exact values.mayFix_iff.mpr
      ⟨var, order, (Registry.slot?_eq known inside).trans (by rw [← same, eq]), Or.inl same⟩
  · intro q hq q' hq' same
    exact Prod.ext same ((mem hq).2.symm.trans (same.trans (mem hq').2))
  · intro q hq q' hq' same
    exact Prod.ext ((mem hq).2.trans (same.trans (mem hq').2.symm)) same
  · intro c below
    exact ⟨c, pair c (values.length ▸ below)⟩

/-- Sorting has no choice: each condition fixes the slot that it is about. -/
theorem AreValues.index_eq (values : AreValues a r ns hs) {location : Float} {endpoint : Endpoint}
    {sorted : SortedConditions} (sorts : Sorts a r hs location endpoint sorted) {s : Nat}
    {c : Condition} (stored : sorted.conditions[s]? = some c) : c.index = s := by
  obtain ⟨-, may, -, -⟩ := sorts.fixes s c stored
  obtain ⟨var, order, own, same | unknown⟩ := values.mayFix_iff.mp may
  · exact same.symm
  · -- the condition has the slot of its unknown, so its own slot has another condition
    have below : c.index < sorted.conditions.length := by
      rw [sorts.length]
      exact (List.getElem?_eq_some_iff.mp (SlotTable.slot?_eq_some_iff.mp own)).1
    have other := List.getElem?_eq_getElem below
    obtain ⟨-, may', -, -⟩ := sorts.fixes _ _ other
    have distinct : (sorted.conditions.map Condition.index).Nodup :=
      sorts.permutation.nodup_iff.mpr List.nodup_range
    obtain ⟨var', order', own', same | unknown'⟩ := values.mayFix_iff.mp may'
    · -- which is this one again
      have again : (sorted.conditions.map Condition.index)[c.index]? =
          (sorted.conditions.map Condition.index)[s]? := by
        rw [List.getElem?_map, List.getElem?_map, other, stored]
        exact congrArg some same.symm
      exact (List.getElem?_inj (by simpa using below) distinct).mp again
    · -- or one that has the slot of its unknown, and then this unknown is not differentiated
      have keys := (keyOf_eq own).symm.trans (keyOf_eq unknown')
      obtain ⟨rfl, rfl⟩ := Prod.mk.inj keys
      exact Option.some.inj (own.symm.trans unknown)

/-- The conditions are sorted, and they stay in order. -/
theorem AreValues.sort_ended (values : AreValues a r ns hs) (location : Float)
    (endpoint : Endpoint) :
    Ended (sort a hs r r.slots location endpoint)
      (fun sorted => Sorts a r hs location endpoint sorted ∧
        (∀ (s : Nat) (c : Condition), sorted.conditions[s]? = some c → c.index = s) ∧
        sorted.conditions.map Condition.handle = hs) fun _ => False := by
  apply (Conditions.sort_ended location endpoint).mono
  · rintro sorted ⟨sorts, -⟩
    have order := fun s c stored => values.index_eq sorts (s := s) (c := c) stored
    refine ⟨sorts, order, List.ext_getElem ?_ fun s h h' => ?_⟩
    · rw [List.length_map, sorts.length, values.length]
    · rw [List.getElem_map]
      have stored := List.getElem?_eq_getElem (show s < sorted.conditions.length by simpa using h)
      obtain ⟨-, -, -, given⟩ := sorts.fixes s _ stored
      rw [order s _ stored] at given
      exact (List.getElem?_eq_some_iff.mp given).2.symm
  · -- sorting fails only if a term has no slot or if there is no pairing
    rintro e none
    refine none ⟨?_, _, values.perfect⟩
    intro root hr
    obtain ⟨s, listed⟩ := List.getElem?_of_mem hr
    obtain ⟨var, order, n, own, -⟩ := values.exists_slot listed
    obtain ⟨h, ts, listed', run, iff⟩ := values.terms own
    obtain rfl : root = h := Option.some.inj (listed.symm.trans listed')
    obtain ⟨m, known, below, -⟩ := Registry.exists_of_slot? own
    refine ⟨ts.map fun term => r.start var + term.2, ts, run, ?_⟩
    rw [List.forall₂_map_right_iff, List.forall₂_same]
    intro term mem
    rcases (iff term).mp mem with rfl | rfl
    · exact Registry.slot?_eq known below
    · exact Registry.slot?_eq known (Nat.zero_lt_of_lt below)

end Conditions

end JetForm
