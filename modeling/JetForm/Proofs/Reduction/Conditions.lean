import JetForm.Proofs.Program.Reading
import JetForm.Proofs.Reduction.Matching
import JetForm.Proofs.Reduction.Slots
import JetForm.Proofs.Reduction.Substitute
import JetForm.Reduction.Conditions

/-! # What sorted conditions fix

    A condition is assigned to a state entry among its terms.  The terms are
    collected from all nodes, those below derivatives included: `diff(u, 2)` has
    the terms `u''` and `u`, but with the state entries in place it reads the
    former only.

    `Tree.refersTo` is what a condition refers to, in the sense that it reads
    the state entry afterwards.  So an entry of positive order is always read by
    the condition that fixes it, and an unknown itself only if it occurs outside
    of derivatives: `sort_reads`. -/

namespace JetForm

namespace Tree

/-- Does the tree contain entry `s` of the state? -/
def reads (s : Nat) : Tree → Bool
  | .leaf _ | .independent | .constant _ => false
  | .slot index _ _ => index = s
  | .unary _ c => c.reads s
  | .valueTree _ _ t => t.reads s
  | .treeValue _ t _ => t.reads s
  | .treeTree _ l r => l.reads s || r.reads s
  | .derivative c _ => c.reads s

/-- Does the tree refer to a derivative of an unknown?  The derivative of order
    zero is the unknown where it is not differentiated. -/
def refersTo (var order : Nat) : Tree → Bool
  | .leaf v => v = var && order = 0
  | .independent | .constant _ | .slot .. => false
  | .unary _ c => c.refersTo var order
  | .valueTree _ _ t => t.refersTo var order
  | .treeValue _ t _ => t.refersTo var order
  | .treeTree _ l r => l.refersTo var order || r.refersTo var order
  | .derivative c k => c = .leaf var && order = k

@[simp] theorem reads_keyed (s : Nat) (t : Tree) : t.keyed.reads s = t.reads s := by
  induction t <;> simp_all [keyed, reads]

@[simp] theorem refersTo_keyed (var order : Nat) (t : Tree) :
    t.keyed.refersTo var order = t.refersTo var order := by
  induction t with
  | derivative c k =>
    have leaf : c.keyed = .leaf var ↔ c = .leaf var := by cases c <;> simp [keyed]
    simp [keyed, refersTo, leaf]
  | leaf | independent | constant | slot => rfl
  | unary _ _ ih | valueTree _ _ _ ih | treeValue _ _ _ ih => exact ih
  | treeTree _ _ _ ihl ihr => simp [keyed, refersTo, ihl, ihr]

/-- Is the tree a term of a condition, as one node of it? -/
def IsTerm (term : Nat × Nat) (t : Tree) : Prop :=
  (t = .leaf term.1 ∧ term.2 = 0) ∨ t = .derivative (.leaf term.1) term.2

variable {r : Registry} {slots : SlotTable}

/-- With the state entries in place, a tree reads what it refers to. -/
theorem reads_substitute {t t' : Tree} (substituted : t.substitute r slots = some t') (s : Nat) :
    t'.reads s = true ↔ t.reads s = true ∨
      ∃ var order : Nat, slots.slot? var order = some s ∧ t.refersTo var order = true := by
  have entry : ∀ {var order : Nat} {t' : Tree}, Tree.entry slots var order = some t' →
      (t'.reads s = true ↔ slots.slot? var order = some s) := by
    intro var order t' eq
    obtain ⟨s', slot, rfl⟩ := Option.map_eq_some_iff.mp eq
    rw [slot]
    simp [reads]
  induction t generalizing t' with
  | leaf var => simp [entry substituted, reads, refersTo]
  | independent | constant | slot =>
    cases substituted
    simp [reads, refersTo]
  | unary op c ih | valueTree op v c ih | treeValue op c v ih =>
    obtain ⟨c', child, rfl⟩ := Option.map_eq_some_iff.mp substituted
    have below := ih child
    exact below
  | treeTree op l r ihl ihr =>
    obtain ⟨l', left, rest⟩ := Option.bind_eq_some_iff.mp substituted
    obtain ⟨r', right, rfl⟩ := Option.map_eq_some_iff.mp rest
    simp only [reads, refersTo, Bool.or_eq_true, ihl left, ihr right, and_or_left, exists_or]
    exact or_or_or_comm
  | derivative c k ih =>
    obtain ⟨var, n, s', rfl, -, -, slot, rfl⟩ := derivative_of_substitute substituted
    simp [slot, reads, refersTo]

/-- A tree has a form with state entries if its unknowns and derivatives have
    one. -/
theorem exists_substitute {t : Tree}
    (unknowns : ∀ var, .leaf var ∈ t.parts → ∃ t', Tree.entry slots var 0 = some t')
    (derivatives : ∀ c k, .derivative c k ∈ t.parts → ∃ t', c.derivativeEntry r slots k = some t') :
    ∃ t', t.substitute r slots = some t' := by
  induction t with
  | leaf var => exact unknowns var (by simp [parts])
  | independent | constant | slot => exact ⟨_, rfl⟩
  | unary op c ih | valueTree op v c ih | treeValue op c v ih =>
    obtain ⟨c', child⟩ := ih (fun var mem => unknowns var (List.mem_cons_of_mem _ mem))
      fun c k mem => derivatives c k (List.mem_cons_of_mem _ mem)
    exact ⟨_, Option.map_eq_some_iff.mpr ⟨c', child, rfl⟩⟩
  | treeTree op left right ihl ihr =>
    obtain ⟨l', left⟩ := ihl (fun var mem => unknowns var (by simp [parts, mem]))
      fun c k mem => derivatives c k (by simp [parts, mem])
    obtain ⟨r', right⟩ := ihr (fun var mem => unknowns var (by simp [parts, mem]))
      fun c k mem => derivatives c k (by simp [parts, mem])
    exact ⟨_, Option.bind_eq_some_iff.mpr
      ⟨l', left, Option.map_eq_some_iff.mpr ⟨r', right, rfl⟩⟩⟩
  | derivative c k ih =>
    obtain ⟨c', child⟩ := ih (fun var mem => unknowns var (List.mem_cons_of_mem _ mem))
      fun c k mem => derivatives c k (List.mem_cons_of_mem _ mem)
    obtain ⟨t', below⟩ := derivatives c k (by simp [parts])
    exact ⟨t', Option.bind_eq_some_iff.mpr ⟨c', child, below⟩⟩

/-- Terms of positive order are referred to, if all derivatives are those of
    unknowns. -/
theorem refersTo_of_isTerm {t p : Tree} {var order : Nat} (part : p ∈ t.parts)
    (term : p.IsTerm (var, order)) (positive : 0 < order)
    (unknown : ∀ c k, .derivative c k ∈ t.parts → ∃ v, c = .leaf v) :
    t.refersTo var order = true := by
  -- induction on the tree: a term of positive order is a derivative, so it is never a leaf
  induction t with
  | leaf | independent | constant | slot =>
    obtain rfl := List.mem_singleton.mp part
    rcases term with ⟨-, zero⟩ | eq
    · exact absurd zero (Nat.ne_of_gt positive)
    · cases eq
  | unary op c ih | valueTree op v c ih | treeValue op c v ih =>
    rcases List.mem_cons.mp part with rfl | part
    · rcases term with ⟨eq, -⟩ | eq <;> cases eq
    · exact ih part fun c k mem => unknown c k (List.mem_cons_of_mem _ mem)
  | treeTree op left right ihl ihr =>
    rcases List.mem_cons.mp part with rfl | part
    · rcases term with ⟨eq, -⟩ | eq <;> cases eq
    · rcases List.mem_append.mp part with part | part
      · simp [refersTo, ihl part fun c k mem => unknown c k (by simp [parts, mem])]
      · simp [refersTo, ihr part fun c k mem => unknown c k (by simp [parts, mem])]
  | derivative c k ih =>
    rcases List.mem_cons.mp part with rfl | part
    · rcases term with ⟨eq, -⟩ | eq
      · cases eq
      · cases eq
        simp [refersTo]
    · obtain ⟨v, rfl⟩ := unknown c k (by simp [parts])
      obtain rfl := List.mem_singleton.mp part
      rcases term with ⟨-, zero⟩ | eq
      · exact absurd zero (Nat.ne_of_gt positive)
      · cases eq

end Tree

namespace Conditions

variable {a : Arena} {r : Registry} {slots : SlotTable}

/-! ## Terms -/

theorem mem_insertTerm {x y : Nat × Nat} {terms : List (Nat × Nat)} :
    x ∈ insertTerm y terms ↔ x = y ∨ x ∈ terms := by
  induction terms with
  | nil => simp [insertTerm]
  | cons z terms ih =>
    rw [insertTerm]
    split
    next same => simp [same]
    next =>
      split
      next => simp
      next => simp [ih, or_left_comm]

/-- What has been found when some nodes have been met. -/
structure Collected (a : Arena) (r : Registry) (before : List Nat) (terms : List (Nat × Nat)) :
    Prop where
  terms : ∀ term, term ∈ terms ↔ ∃ g ∈ before, (a.expression g).IsTerm term
  lower : ∀ g ∈ before, ∀ c k, a.expression g = .derivative c k →
    ∃ var n, c = .leaf var ∧ r.orders[var]? = some n ∧ ¬ n ≤ (k : Int)

/-- A node that is no term. -/
theorem Collected.skip {before : List Nat} {terms : List (Nat × Nat)} {h : Nat}
    (collected : Collected a r before terms) (unknown : ∀ var, a.expression h ≠ .leaf var)
    (derivative : ∀ c k, a.expression h ≠ .derivative c k) :
    Collected a r (before ++ [h]) terms := by
  refine ⟨?_, ?_⟩
  · intro term
    rw [collected.terms]
    simp [Tree.IsTerm, unknown, derivative]
  · intro g hg c k eq
    rcases List.mem_append.mp hg with hg | hg
    · exact collected.lower g hg c k eq
    · obtain rfl := List.mem_singleton.mp hg
      exact absurd eq (derivative c k)

/-- A node that is a term, and no derivative of too high an order. -/
theorem Collected.insert {before : List Nat} {terms : List (Nat × Nat)} {h : Nat}
    (collected : Collected a r before terms) {term : Nat × Nat}
    (here : ∀ t, (a.expression h).IsTerm t ↔ t = term)
    (lower : ∀ c k, a.expression h = .derivative c k →
      ∃ var n, c = .leaf var ∧ r.orders[var]? = some n ∧ ¬ n ≤ (k : Int)) :
    Collected a r (before ++ [h]) (insertTerm term terms) := by
  refine ⟨?_, ?_⟩
  · intro t
    rw [mem_insertTerm, collected.terms, or_comm]
    simp [or_and_right, exists_or, here]
  · intro g hg c k eq
    rcases List.mem_append.mp hg with hg | hg
    · exact collected.lower g hg c k eq
    · obtain rfl := List.mem_singleton.mp hg
      exact lower c k eq

theorem meet_collected {roots before : List Nat} {h : Nat} {node : Node}
    {terms : List (Nat × Nat)} (turn : a.Turn roots before h node)
    (collected : Collected a r before terms) :
    Ended (meet a r terms node) (Collected a r (before ++ [h])) fun e => e.isLate = false := by
  have expression := Arena.expression_eq turn.stored
  -- only a leaf and a derivative of a leaf are terms; every other node leaves the list as it is
  cases node with
  | leaf var =>
    refine collected.insert ?_ ?_
    · rintro ⟨v, k⟩
      rw [expression]
      simp [Arena.expressionOf, Tree.IsTerm, eq_comm]
    · intro c k eq
      rw [expression] at eq
      cases eq
  | derivative c k =>
    dsimp only [meet]
    split
    next var stored =>
      have child := Arena.expression_eq stored
      apply Ended.bind
      rw [Registry.order]
      cases known : r.orders[var]? with
      | none => exact rfl
      | some n =>
      show Ended (if n ≤ (k : Int) then _ else _) _ _
      split
      next => exact rfl
      next below =>
        refine collected.insert ?_ ?_
        · rintro ⟨v, j⟩
          rw [expression]
          simp [Arena.expressionOf, child, Tree.IsTerm, eq_comm]
        · intro c' j eq
          rw [expression] at eq
          cases eq
          exact ⟨var, n, child, known, below⟩
    next => exact rfl
  | binary op operands =>
    refine collected.skip ?_ ?_
    · intro var
      rw [expression]
      cases operands <;> simp [Arena.expressionOf]
    · intro c k
      rw [expression]
      cases operands <;> simp [Arena.expressionOf]
  | independent | constant | slot | unary =>
    refine collected.skip ?_ ?_
    · intro var
      rw [expression]
      simp [Arena.expressionOf]
    · intro c k
      rw [expression]
      simp [Arena.expressionOf]

/-- The terms of a condition, and what is known when they could be listed. -/
structure Termed (a : Arena) (r : Registry) (root : Nat) (terms : List (Nat × Nat)) : Prop where
  inside : root < a.count
  terms : ∀ term, term ∈ terms ↔ ∃ p ∈ (a.expression root).parts, p.IsTerm term
  lower : ∀ (c : Tree) (k : Nat), .derivative c k ∈ (a.expression root).parts →
    ∃ var n, c = .leaf var ∧ r.orders[var]? = some n ∧ ¬ n ≤ (k : Int)

theorem terms_termed (root : Nat) :
    Ended (terms a r root) (Termed a r root) fun e => e.isLate = false := by
  rw [terms, Arena.requireNodes]
  split
  next stored =>
    have inside : root < a.count := by simpa [Arena.count] using stored
    have roots : ∀ h ∈ [root], h < a.count := by simpa using inside
    refine (Arena.ended_sweep roots (Collected a r) ⟨by simp, by simp⟩ ?_).mono ?_ fun _ => id
    · exact fun before h node terms turn collected => meet_collected turn collected
    · intro terms collected
      have parts : ∀ p, p ∈ (a.expression root).parts ↔
          ∃ g ∈ a.postorder [root], a.expression g = p := by
        intro p
        simp [Arena.mem_parts_expression inside, Arena.mem_postorder roots]
      refine ⟨inside, ?_, ?_⟩
      · intro term
        simp [collected.terms, parts]
      · intro c k part
        obtain ⟨g, hg, eq⟩ := (parts _).mp part
        exact collected.lower g hg c k eq
  next => exact rfl

/-! ## Sorting -/

/-- The slots of the terms of a condition. -/
def Slotted (a : Arena) (r : Registry) (slots : SlotTable) (root : Nat) (candidates : List Nat) :
    Prop :=
  ∃ terms, Termed a r root terms ∧
    List.Forall₂ (fun term s => slots.slot? term.1 term.2 = some s) terms candidates

theorem candidates_slotted (roots : List Nat) :
    Ended (candidates a r slots roots) (List.Forall₂ (Slotted a r slots) roots)
      fun _ => True := by
  refine Ended.mapM fun root _ => ?_
  refine Ended.bind ((terms_termed root).mono ?_ fun _ _ => trivial)
  intro terms termed
  refine (Ended.mapM fun term _ => ?_).mono (fun candidates slotted => ⟨terms, termed, slotted⟩)
    fun _ => id
  show Ended (slots.slot term.1 term.2) _ _
  rw [SlotTable.slot]
  cases slots.slot? term.1 term.2 with
  | some s => rfl
  | none => trivial

/-- Condition `c` is one of the given ones, and is assigned to the slot of one of
    its terms. -/
structure Fixes (a : Arena) (r : Registry) (slots : SlotTable) (roots : List Nat) (s : Nat)
    (c : Condition) : Prop where
  slot : c.slot = s
  given : roots[c.index]? = some c.handle
  key : slots.slot? c.var c.order = some s
  terms : ∃ terms, Termed a r c.handle terms ∧ (c.var, c.order) ∈ terms ∧
    ∀ term ∈ terms, ∃ t, slots.slot? term.1 term.2 = some t

theorem keyOf_eq {var order s : Nat} (key : slots.slot? var order = some s) :
    keyOf slots s = (var, order) := by
  rw [keyOf, SlotTable.slot?_eq_some_iff.mp key]
  simp

/-- The owner of a slot fixes it. -/
theorem conditionAt_fixes {roots : List Nat} {candidates : List (List Nat)} {m : Matching}
    (slotted : List.Forall₂ (Slotted a r slots) roots candidates)
    (valid : m.Valid fun c => candidates[c]?.getD []) {s i : Nat} (owned : m.owner? s = some i) :
    ∃ c, conditionAt slots roots m s = some c ∧ Fixes a r slots roots s c := by
  have edge := valid.edges s i owned
  cases given : candidates[i]? with
  | none =>
    rw [given] at edge
    cases edge
  | some targets =>
    rw [given] at edge
    obtain ⟨root, stored, terms, termed, related⟩ := exists_of_forall₂_right slotted given
    obtain ⟨term, listed, key⟩ := exists_mem_of_forall₂_right related edge
    refine ⟨⟨i, term.1, term.2, s, root⟩, ?_, rfl, stored, key, terms, termed, listed, ?_⟩
    · simp [conditionAt, owned, stored, keyOf_eq key]
    · intro term mem
      obtain ⟨t, -, key⟩ := exists_mem_of_forall₂_left related mem
      exact ⟨t, key⟩

/-- A sort that returns has found a matching without defect. -/
theorem matching_of_sort {roots : List Nat} {location : Float} {endpoint : Endpoint}
    {sorted : SortedConditions} (run : sort a roots r slots location endpoint = .ok sorted) :
    ∃ targets m, candidates a r slots roots = .ok targets ∧
      m = Matching.greedy (fun c => targets[c]?.getD []) roots.length ∧
      defect roots.length slots targets m = none ∧
      sorted.conditions = (List.range slots.size).filterMap (conditionAt slots roots m) := by
  rw [sort] at run
  obtain ⟨targets, found, run⟩ := exists_ok_of_bind run
  refine ⟨targets, _, found, rfl, ?_⟩
  dsimp only at run
  split at run
  next => cases run
  next none =>
    cases run
    exact ⟨none, rfl⟩

/-- After sorting every slot has a condition that fixes it. -/
theorem sort_fixes {roots : List Nat} {location : Float} {endpoint : Endpoint}
    {sorted : SortedConditions} (run : sort a roots r slots location endpoint = .ok sorted) :
    ∀ s < slots.size, ∃ c, sorted.conditions[s]? = some c ∧ Fixes a r slots roots s c := by
  obtain ⟨targets, m, found, rfl, defect, conditions⟩ := matching_of_sort run
  have slotted : List.Forall₂ (Slotted a r slots) roots targets :=
    (candidates_slotted roots).of_ok found
  have valid := Matching.valid_greedy (fun c => targets[c]?.getD []) roots.length
  generalize Matching.greedy (fun c => targets[c]?.getD []) roots.length = m
    at valid defect conditions
  -- no defect was reported, so every slot has an owner
  have owned : ∀ s < slots.size, ∃ i, m.owner? s = some i := by
    rw [Conditions.defect] at defect
    split at defect
    next => cases defect
    next all =>
      intro s hs
      have some := List.find?_eq_none.mp all s (List.mem_range.mpr hs)
      exact Option.ne_none_iff_exists'.mp (by simpa using some)
  have each : ∀ s < slots.size, ∃ c, conditionAt slots roots m s = some c ∧
      Fixes a r slots roots s c := by
    intro s hs
    obtain ⟨i, owner⟩ := owned s hs
    exact conditionAt_fixes slotted valid owner
  have : Nonempty Condition := ⟨⟨0, 0, 0, 0, 0⟩⟩
  choose! assigned is_assigned fixes using each
  have all : (List.range slots.size).filterMap (conditionAt slots roots m) =
      (List.range slots.size).map assigned :=
    List.filterMap_eq_map_iff_forall_eq_some.mpr fun s hs =>
      is_assigned s (List.mem_range.mp hs)
  intro s hs
  refine ⟨assigned s, ?_, fixes s hs⟩
  rw [conditions, all, List.getElem?_map, List.getElem?_range hs, Option.map_some]

/-- There are as many sorted conditions as slots. -/
theorem length_of_sort {roots : List Nat} {location : Float} {endpoint : Endpoint}
    {sorted : SortedConditions} (run : sort a roots r slots location endpoint = .ok sorted) :
    sorted.conditions.length = slots.size := by
  obtain ⟨-, m, -, -, -, conditions⟩ := matching_of_sort run
  have most : sorted.conditions.length ≤ slots.size := by
    rw [conditions]
    simpa using List.length_filterMap_le (conditionAt slots roots m) (List.range slots.size)
  by_contra other
  obtain ⟨c, stored, -⟩ := sort_fixes run sorted.conditions.length (by omega)
  simp at stored

/-- Every sorted condition fixes the slot at its place. -/
theorem fixes_of_mem_sort {roots : List Nat} {location : Float} {endpoint : Endpoint}
    {sorted : SortedConditions} (run : sort a roots r slots location endpoint = .ok sorted)
    {c : Condition} (hc : c ∈ sorted.conditions) : ∃ s, Fixes a r slots roots s c := by
  obtain ⟨s, stored⟩ := List.getElem?_of_mem hc
  have inside := (List.getElem?_eq_some_iff.mp stored).1
  rw [length_of_sort run] at inside
  obtain ⟨c', stored', fixes⟩ := sort_fixes run s inside
  rw [stored] at stored'
  cases stored'
  exact ⟨s, fixes⟩

/-! ## State entries that are read -/

/-- The condition that fixes a slot has a form with state entries. -/
theorem Fixes.exists_substitute {roots : List Nat} {s : Nat} {c : Condition}
    (fixes : Fixes a r slots roots s c) :
    ∃ t, (a.expression c.handle).substitute r slots = some t := by
  obtain ⟨terms, termed, -, slotted⟩ := fixes.terms
  have entry : ∀ var order : Nat, (∃ p ∈ (a.expression c.handle).parts, p.IsTerm (var, order)) →
      ∃ t, Tree.entry slots var order = some t := by
    intro var order term
    obtain ⟨s, slot⟩ := slotted _ ((termed.terms (var, order)).mpr term)
    exact ⟨_, Option.map_eq_some_iff.mpr ⟨s, slot, rfl⟩⟩
  refine Tree.exists_substitute ?_ ?_
  · exact fun var part => entry var 0 ⟨_, part, Or.inl ⟨rfl, rfl⟩⟩
  · intro c' k part
    obtain ⟨var, n, rfl, known, below⟩ := termed.lower c' k part
    obtain ⟨t, eq⟩ := entry var k ⟨_, part, Or.inr rfl⟩
    exact ⟨t, by rw [Tree.derivativeEntry, known, Option.bind_some, if_neg below, eq]⟩

/-- What the condition that fixes a slot reads with the state entries in place.
    It is the slot itself, unless that belongs to an unknown which occurs below
    derivatives only. -/
theorem Fixes.reads_iff {roots : List Nat} {s : Nat} {c : Condition} {t : Tree}
    (fixes : Fixes a r slots roots s c)
    (substituted : (a.expression c.handle).substitute r slots = some t) :
    t.reads s = true ↔ (a.expression c.handle).reads s = true ∨ 0 < c.order ∨
      (a.expression c.handle).refersTo c.var 0 = true := by
  obtain ⟨terms, termed, term, -⟩ := fixes.terms
  obtain ⟨p, part, term⟩ := (termed.terms _).mp term
  have unique : (∃ var order : Nat, slots.slot? var order = some s ∧
      (a.expression c.handle).refersTo var order = true) ↔
      (a.expression c.handle).refersTo c.var c.order = true := by
    constructor
    · rintro ⟨var, order, slot, refers⟩
      have same := keyOf_eq slot
      rw [keyOf_eq fixes.key] at same
      cases same
      exact refers
    · exact fun refers => ⟨_, _, fixes.key, refers⟩
  rw [Tree.reads_substitute substituted, unique]
  refine or_congr_right ?_
  rcases Nat.eq_zero_or_pos c.order with zero | positive
  · simp [zero]
  · have refers := Tree.refersTo_of_isTerm part term positive fun c k part => by
      obtain ⟨var, -, eq, -⟩ := termed.lower c k part
      exact ⟨var, eq⟩
    simp [positive, refers]

/-- After sorting, every slot is fixed by a condition of the list.  With the
    state entries in place this condition reads the slot if the slot is that of
    a proper derivative, or if its unknown occurs outside of derivatives, and
    not otherwise.  A condition without divisors has such a form. -/
theorem sort_reads (wf : a.WellFormed) {roots : List Nat} {location : Float}
    {endpoint : Endpoint} {sorted : SortedConditions}
    (run : sort a roots r slots location endpoint = .ok sorted) {s : Nat} (hs : s < slots.size) :
    ∃ c, sorted.conditions[s]? = some c ∧ c.slot = s ∧ slots.slot? c.var c.order = some s ∧
      roots[c.index]? = some c.handle ∧
      Ends (Substitute.root r slots c.handle ∅) a
        (fun p a' => (a'.tree p.1).reads s = true ↔ (a.tree c.handle).reads s = true ∨
          0 < c.order ∨ (a.tree c.handle).refersTo c.var 0 = true)
        fun _ _ => (a.tree c.handle).hasDivisor = true := by
  obtain ⟨c, stored, fixes⟩ := sort_fixes run s hs
  obtain ⟨terms, termed, -⟩ := fixes.terms
  refine ⟨c, stored, fixes.slot, fixes.key, fixes.given, ?_⟩
  refine (Substitute.root_ends wf termed.inside Arena.remembers_empty).mono ?_ ?_
  · rintro p a' ⟨⟨t, substituted, made⟩, -⟩
    have iff := fixes.reads_iff substituted
    rw [← made.expression] at iff
    simpa only [Arena.expression, Tree.reads_keyed, Tree.refersTo_keyed] using iff
  · rintro _ _ (none | divides)
    · obtain ⟨t, some⟩ := fixes.exists_substitute
      rw [none] at some
      cases some
    · rwa [Arena.expression, Tree.hasDivisor_keyed] at divides

/-! ## An unknown that no condition fixes -/

/-- The conditions `u' - 1 = 0` and `u' - 2 = 0`. -/
def slopes : Building (List Nat) := do
  let u ← Arena.leaf 0
  let d ← Arena.derivative u 1
  let one ← Arena.intern (.number (.int 1))
  let two ← Arena.intern (.number (.int 2))
  let x ← Arena.binary .minus (.treeValue d one)
  let y ← Arena.binary .minus (.treeValue d two)
  return [x, y]

/-- One unknown of second order. -/
def curved : Registry := ⟨[2], ["u"], rfl⟩

/-- Node `x` is a condition on the slope of `u`. -/
def IsSlope (a : Arena) (x : Nat) : Prop :=
  ∃ d u v, a.node? x = some (.binary .minus (.treeValue d v)) ∧
    a.node? d = some (.derivative u 1) ∧ a.node? u = some (.leaf 0)

theorem slopes_ends : Ends slopes (.empty 1)
    (fun hs a => a.WellFormed ∧ ∃ x y, hs = [x, y] ∧ IsSlope a x ∧ IsSlope a y)
    fun _ _ => False := by
  have wf := Arena.wellFormed_empty 1 0
  refine Ends.bind ((Arena.leaf_stores wf 0).mono ?_ fun _ _ h => h.1 (by decide))
  rintro u a₁ ⟨-, unknown⟩
  refine Ends.bind ((Arena.derivative_stores unknown.wellFormed u 1).mono ?_
    fun _ _ h => h.1 ⟨Nat.one_pos, unknown.inside⟩)
  rintro d a₂ ⟨-, slope⟩
  refine Ends.bind ((Arena.intern_interns slope.wellFormed _).weaken ?_)
  intro v a₃ one
  refine Ends.bind ((Arena.intern_interns one.wellFormed _).weaken ?_)
  intro w a₄ two
  have grown := one.grown.trans two.grown
  -- the two conditions differ in the number only
  have condition : ∀ {b : Arena} {v : Nat}, b.WellFormed → a₂.Extends b → v < b.values.size →
      Ends (Arena.binary .minus (.treeValue d v)) b
        (fun x b' => b.Stores (.binary .minus (.treeValue d v)) x b') fun _ _ => False := by
    intro b v wf grown inside
    refine (Arena.binary_stores wf .minus (.treeValue d v)).mono (fun _ _ h => h.2) ?_
    rintro _ _ ⟨outside | ⟨t, v, n, f, quotient, -⟩, -⟩
    · exact outside ⟨by simpa [Operands.trees] using grown.lt_count slope.inside,
        by simpa [Operands.values] using inside⟩
    · cases quotient
  refine Ends.bind ((condition two.wellFormed grown (two.grown.value v one.inside).1).weaken ?_)
  intro x a₅ first
  refine Ends.bind ((condition first.wellFormed (grown.trans first.grown)
    (first.grown.value w two.inside).1).weaken ?_)
  intro y a second
  have below : ∀ {z v : Nat}, a.node? z = some (.binary .minus (.treeValue d v)) → IsSlope a z := by
    intro z v stored
    have later := (grown.trans first.grown).trans second.grown
    exact ⟨d, u, v, stored, later.node d _ slope.stored,
      (slope.grown.trans later).node u _ unknown.stored⟩
  exact Ends.pure ⟨second.wellFormed, x, y, rfl, below (second.grown.node x _ first.stored),
    below second.stored⟩

/-- The unknown below the derivative is listed as a term. -/
theorem terms_of_isSlope {x : Nat} (slope : IsSlope a x) :
    terms a curved x = .ok [(0, 1), (0, 0)] := by
  obtain ⟨d, u, v, hx, hd, hu⟩ := slope
  have inside : ∀ r ∈ [x], r < a.count := by simpa using Arena.lt_count hx
  have order : a.postorder [x] = [u, d, x] := by
    rw [Arena.postorder_eq_depthFirst inside, Arena.depthFirst, List.foldl_cons, List.foldl_nil,
      Arena.visit_of_not_mem List.not_mem_nil, Arena.children_eq hx]
    simp only [Node.children, Operands.trees, Arena.visitAll_cons, Arena.visitAll_nil]
    rw [Arena.visit_of_not_mem List.not_mem_nil, Arena.children_eq hd]
    simp only [Node.children, Arena.visitAll_cons, Arena.visitAll_nil]
    rw [Arena.visit_of_not_mem List.not_mem_nil, Arena.children_eq hu]
    rfl
  have stored : a.requireNodes [x] = .ok () := by
    simpa [Arena.requireNodes_eq_ok] using inside
  simp only [terms, stored, Arena.sweepM, order]
  simp [List.foldlM, hx, hd, hu, meet, bind, Except.bind, pure, Except.pure, Registry.order, curved,
    insertTerm, comesBefore]

/-- The first of two conditions on the slope has to make room for the second,
    and is assigned to the unknown. -/
theorem sort_of_isSlope {x y : Nat} (first : IsSlope a x) (second : IsSlope a y) :
    sort a [x, y] curved curved.slots 0 .left =
      .ok ⟨[⟨0, 0, 0, 0, x⟩, ⟨1, 0, 1, 1, y⟩], 0, .left⟩ := by
  have zero : curved.slots.slot 0 0 = .ok 0 := by rfl
  have one : curved.slots.slot 0 1 = .ok 1 := by rfl
  have listed : candidates a curved curved.slots [x, y] = .ok [[1, 0], [1, 0]] := by
    simp [candidates, terms_of_isSlope first, terms_of_isSlope second, bind, Except.bind, pure,
      Except.pure, zero, one]
  have matched : Matching.greedy (fun c => [[1, 0], [1, 0]][c]?.getD []) [x, y].length =
      ⟨[(1, 1), (0, 0)]⟩ := by
    cbv
  simp only [sort, listed, bind, Except.bind, matched]
  rfl

/-- With the state entries in place, a condition on the slope does not read the
    unknown. -/
theorem root_of_isSlope (wf : a.WellFormed) {x : Nat} (slope : IsSlope a x) :
    Ends (Substitute.root curved curved.slots x ∅) a
      (fun p a' => (a'.tree p.1).reads 0 = false) fun _ _ => False := by
  obtain ⟨d, u, v, hx, hd, hu⟩ := slope
  have expression : a.expression x =
      .treeValue .minus (.derivative (.leaf 0) 1) (a.value v).key := by
    simp only [Arena.expression_eq hx, Arena.expressionOf, Arena.expression_eq hd,
      Arena.expression_eq hu]
  have substituted : (a.expression x).substitute curved curved.slots =
      some (.treeValue .minus (.slot 1 0 1) (a.value v).key) := by
    rw [expression]
    rfl
  refine (Substitute.root_ends wf (Arena.lt_count hx) Arena.remembers_empty).mono ?_ ?_
  · rintro p a' ⟨⟨t, eq, made⟩, -⟩
    rw [substituted] at eq
    cases eq
    rw [← Tree.reads_keyed, ← Arena.expression, made.expression]
    rfl
  · rintro _ _ (none | divides)
    · rw [substituted] at none
      cases none
    · rw [expression] at divides
      cases divides

/-- Both conditions are about the slope, and yet sorting assigns one of them to
    the unknown, which it does not read. -/
theorem sort_slopes : ∃ x y a sorted c, slopes (.empty 1) = .ok [x, y] a ∧
    sort a [x, y] curved curved.slots 0 .left = .ok sorted ∧
    sorted.conditions[0]? = some c ∧ c.slot = 0 ∧
    ∃ p a', Substitute.root curved curved.slots c.handle ∅ a = .ok p a' ∧
      (a'.tree p.1).reads 0 = false := by
  obtain ⟨hs, a, built, wf, x, y, rfl, first, second⟩ := slopes_ends.exists_ok
  obtain ⟨p, a', run, unread⟩ := (root_of_isSlope wf first).exists_ok
  exact ⟨x, y, a, _, _, built, sort_of_isSlope first second, rfl, rfl, p, a', run, unread⟩

theorem sort_reads_slopes : ∃ x y a sorted, slopes (.empty 1) = .ok [x, y] a ∧ a.WellFormed ∧
    sort a [x, y] curved curved.slots 0 .left = .ok sorted ∧ 1 < curved.slots.size ∧
    ∃ c, sorted.conditions[1]? = some c ∧ c.slot = 1 ∧
      curved.slots.slot? c.var c.order = some 1 ∧ [x, y][c.index]? = some c.handle ∧
      Ends (Substitute.root curved curved.slots c.handle ∅) a
        (fun p a' => (a'.tree p.1).reads 1 = true ↔ (a.tree c.handle).reads 1 = true ∨
          0 < c.order ∨ (a.tree c.handle).refersTo c.var 0 = true)
        fun _ _ => (a.tree c.handle).hasDivisor = true := by
  obtain ⟨hs, a, built, wf, x, y, rfl, first, second⟩ := slopes_ends.exists_ok
  have sorted := sort_of_isSlope first second
  exact ⟨x, y, a, _, built, wf, sorted, by decide, sort_reads wf sorted (by decide)⟩

end Conditions

end JetForm
