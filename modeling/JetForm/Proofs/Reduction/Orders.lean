import JetForm.Proofs.Differential.NormalForm
import JetForm.Proofs.Reduction.Lowerable
import JetForm.Proofs.Tree.Calls
import JetForm.Proofs.Tree.Orders
import JetForm.Proofs.Tree.Sharing

/-! # Orders are read from the metadata

    The stages after normalising never look for derivatives in the trees: they read from the
    metadata how often each unknown is differentiated.  `Arena.normalize_settles` says that the
    metadata are right.  In the trees that normalising returns, every derivative is one of an
    unknown, the metadata are still those of the original trees, and the orders that are traced are
    the highest that are found.  Nothing is left to do: another pass returns the same handles, and
    finds every node that it asks for. -/

namespace JetForm

namespace Normalize

variable {a b : Arena}

/-! ## Another pass -/

/-- A derivative of an unknown that is stored is found. -/
theorem push_keeps (wf : a.WellFormed) {h c var k : Nat} (unknown : a.node? c = some (.leaf var))
    (stored : a.node? h = some (.derivative c k)) (memo : Memo) :
    Ends (push c k memo) a (fun _ b => b.nodes = a.nodes) fun _ _ => False := by
  rw [push]
  apply Ends.bindState
  apply Ends.getState
  cases memo.derivatives[(c, k)]? with
  | some r => exact Ends.pureState rfl
  | none =>
    apply Ends.bindState
    apply Ends.liftState
    apply Ends.get
    dsimp only
    generalize a.node? c = found at unknown ⊢
    subst unknown
    obtain ⟨b, run, nodes⟩ := Arena.construct_of_stored wf stored trivial
    apply Ends.bindState
    apply Ends.liftState
    apply Ends.of_run run
    exact Ends.bindState (Ends.modifyState (Ends.pureState nodes))

/-- Where all derivatives are ones of unknowns, meeting a node adds none. -/
theorem meet_keeps {roots before : List Nat} {h : Nat} {node : Node} {memo : Memo}
    (turn : a.Turn roots before h node) (swept : Swept a before memo b)
    (plain : (b.expression h).OnUnknowns) (quotable : b.NodeQuotable node) :
    Ends (meet h node memo) b (fun _ c => c.nodes = b.nodes) fun _ _ => False := by
  have wf := swept.swept.wellFormed
  have hn := swept.swept.grown.node h node turn.stored
  have inside := Arena.lt_count hn
  have below : ∀ c ∈ node.children, c < b.count := fun c hc =>
    Nat.lt_trans (b.child_lt h node hn c hc) inside
  -- the children are their own normal forms
  have same : ∀ c ∈ node.children, memo.normal[c]?.getD c = c := by
    intro c hc
    obtain ⟨r, eq, hr, normal⟩ := swept.swept.known (turn.children c hc)
    have part : b.expression c ∈ (b.expression h).children := by
      rw [Arena.expression_eq hn, Arena.children_expressionOf]
      exact List.mem_map_of_mem hc
    have own : (b.expression c).normalForm = some (b.expression c) := (plain.child _ part).normalForm
    rw [eq]
    exact Arena.expression_injective wf hr (below c hc) (Option.some.inj (normal.symm.trans own))
  have constructed : Ends (Arena.construct node) b (fun _ c => c.nodes = b.nodes)
      fun _ _ => False := by
    obtain ⟨c, run, nodes⟩ := Arena.construct_of_stored wf hn quotable
    exact Ends.of_run run nodes
  unfold meet
  apply Ends.bindState
  apply Ends.getState
  split
  · exact Ends.pureState rfl
  have remember : ∀ {x : Building Nat},
      Ends x b (fun _ c => c.nodes = b.nodes) (fun _ _ => False) →
      Ends ((do
        let r ← liftM x
        modify fun memo => { memo with normal := memo.normal.insert h r } : Normalizing Unit) memo)
        b (fun _ c => c.nodes = b.nodes) fun _ _ => False := fun kept =>
    Ends.bindState (Ends.liftState (kept.weaken fun _ _ nodes => Ends.modifyState nodes))
  cases node with
  | leaf | independent | constant | slot => exact remember (Ends.pure rfl)
  | unary op c =>
    apply remember
    rw [Arena.copyNode, same c (by simp [Node.children])]
    exact constructed
  | binary op operands =>
    apply remember
    have mapped : operands.mapTrees (fun c => memo.normal[c]?.getD c) = operands := by
      cases operands with
      | valueTree v t | treeValue t v =>
        simp only [Operands.mapTrees, same t (by simp [Node.children, Operands.trees])]
      | treeTree l r =>
        simp only [Operands.mapTrees, same l (by simp [Node.children, Operands.trees]),
          same r (by simp [Node.children, Operands.trees])]
    rw [Arena.copyNode, mapped]
    exact constructed
  | derivative c k =>
    have whole := Arena.expression_eq hn
    obtain ⟨var, unknown⟩ := plain _ k (Tree.mem_parts.mpr (Or.inl whole.symm))
    have leaf := Arena.node?_of_leaf (below c (by simp [Node.children])) unknown
    apply Ends.bindState
    apply Ends.bindState
    apply Ends.getState
    apply Ends.pureState
    rw [same c (by simp [Node.children])]
    apply Ends.bindState
    apply (push_keeps wf leaf hn memo).weaken
    exact fun _ _ nodes => Ends.modifyState nodes

/-- A tree that is done: it can be recorded, and its derivatives are ones of unknowns. -/
structure Settled (a : Arena) (h : Nat) : Prop where
  inside : h < a.count
  plain : (a.expression h).OnUnknowns
  repeatable : a.Repeatable h

/-- What a settled tree reaches is settled. -/
theorem Settled.reach {h g : Nat} (settled : Settled a h) (reach : a.Reaches h g) : Settled a g := by
  refine ⟨reach.lt_count settled.inside, ?_, ?_⟩
  · by_contra compound
    refine Arena.expression_of_reaches (P := fun t => ¬ t.OnUnknowns) ?_ reach compound settled.plain
    exact fun t c hc other plain => other (plain.child c hc)
  · exact fun f op operands below => settled.repeatable f op operands (reach.trans below)

theorem Settled.grow {h : Nat} (settled : Settled a h) (wf : a.WellFormed) (grown : a.Extends b) :
    Settled b h := by
  refine ⟨grown.lt_count settled.inside, ?_, settled.repeatable.grow wf grown settled.inside⟩
  rw [grown.expression wf settled.inside]
  exact settled.plain

/-- The pass over a settled tree adds no node. -/
theorem root_keeps (wf : a.WellFormed) {h : Nat} (settled : Settled a h) {memo : Memo}
    (sound : memo.Sound a) :
    Ends (root h memo) a (fun _ b => b.nodes = a.nodes) fun _ _ => False := by
  apply (root_pass wf settled.inside sound (fun _ b => b.nodes = a.nodes) rfl ?_).weaken
  · exact fun _ _ => And.right
  · intro before g node memo b turn swept kept
    have reach := turn.reaches
    have grown := swept.swept.grown
    have here : Settled b g := (settled.reach reach).grow wf grown
    have quotable : b.NodeQuotable node := by
      cases node with
      | binary op operands =>
        exact here.repeatable g op operands (Arena.Reaches.refl b g) (grown.node g _ turn.stored)
      | leaf | independent | constant | slot | unary | derivative => trivial
    exact (meet_keeps turn swept here.plain quotable).weaken fun _ _ nodes => nodes.trans kept

/-- A normal form has the metadata of the original tree. -/
theorem Normalizes.metadata {h r : Nat} (normal : Normalizes a h b r) (wf : a.WellFormed)
    (wf' : b.WellFormed) (grown : a.Extends b) (inside : h < a.count) :
    (b.info r).mask = (a.info h).mask ∧ (b.info r).diffOrder = (a.info h).diffOrder := by
  constructor
  · apply Nat.eq_of_testBit_eq
    intro var
    rw [Arena.testBit_mask wf' normal.inside, Arena.testBit_mask wf inside, ← Tree.dependsOn_keyed,
      ← Tree.dependsOn_keyed var (a.tree h)]
    exact Tree.dependsOn_normalForm normal.normalForm var
  · rw [Arena.diffOrder_info wf' normal.inside, Arena.diffOrder_info wf inside, grown.size]
    apply List.map_congr_left
    intro var _
    rw [← Tree.diffOrder_keyed, ← Tree.diffOrder_keyed var (a.tree h)]
    exact Tree.diffOrder_normalForm normal.normalForm var

end Normalize

namespace Arena

variable {a b : Arena} {roots hs : List Nat}

/-- Normalising settled trees returns them as they are and adds no node. -/
theorem normalize_settled (wf : a.WellFormed) (settled : ∀ h ∈ hs, Normalize.Settled a h) :
    Ends (normalize hs) a (fun hs' b => hs' = hs ∧ b.nodes = a.nodes) fun _ _ => False := by
  have inside : ∀ h ∈ hs, h < a.count := fun h hh => (settled h hh).inside
  apply (normalize_pass wf inside (fun _ b => b.nodes = a.nodes) rfl ?_).weaken
  · rintro hs' b ⟨⟨wf', grown, normal⟩, -, nodes⟩
    refine ⟨?_, nodes⟩
    -- equal expressions have equal handles
    have same : List.Forall₂ (fun h h' => h' = h) hs hs' := by
      refine List.forall₂_iff_zip.mpr ⟨normal.length_eq, ?_⟩
      intro h h' listed
      obtain ⟨inside', form⟩ := List.forall₂_zip normal listed
      have here := settled h (List.of_mem_zip listed).1
      have own : (a.expression h).normalForm = some (a.expression h) := here.plain.normalForm
      have eq : b.expression h' = b.expression h := by
        rw [grown.expression wf here.inside]
        exact Option.some.inj (form.symm.trans own)
      exact expression_injective wf' inside' (grown.lt_count here.inside) eq
    exact List.forall₂_eq_eq_eq ▸ same.flip
  · intro h hh memo b wf' grown sound nodes
    apply (Normalize.root_keeps wf' ((settled h hh).grow wf grown) sound).weaken
    exact fun _ _ kept => kept.trans nodes

/-! ## Traced orders -/

/-- The trace of an unknown is the highest of its orders in the trees. -/
theorem tracedOrders_isGreatest (wf : a.WellFormed) (inside : ∀ r ∈ roots, r < a.count) {var : Nat}
    (known : var < a.size) : ∃ n, (a.tracedOrders roots)[var]? = some n ∧
      IsGreatest {k | k = 0 ∨ ∃ r ∈ roots, k = (a.expression r).diffOrder var} n := by
  -- by induction on the roots, from any order that has been reached so far
  suffices fold : ∀ (orders : List Nat) (m : Nat), orders[var]? = some m → ∃ n,
      (roots.foldl (fun orders root => List.zipWith max orders (a.info root).diffOrder) orders)[var]?
        = some n ∧
      IsGreatest {k | k = m ∨ ∃ r ∈ roots, k = (a.expression r).diffOrder var} n from
    fold (List.replicate a.size 0) 0 (by simp [known])
  induction roots with
  | nil => exact fun orders m start => ⟨m, start, Or.inl rfl, by simp [upperBounds]⟩
  | cons r rs ih =>
    intro orders m start
    have row := diffOrder_info_getElem? wf (inside r List.mem_cons_self) known
    have next : (List.zipWith max orders (a.info r).diffOrder)[var]? =
        some (max m ((a.expression r).diffOrder var)) := by
      rw [List.getElem?_zipWith, start, row]
    obtain ⟨n, eq, member, bound⟩ :=
      ih (fun r hr => inside r (List.mem_cons_of_mem _ hr)) _ _ next
    refine ⟨n, eq, ?_, ?_⟩
    · rcases member with rfl | ⟨r', hr', rfl⟩
      · rcases max_choice m ((a.expression r).diffOrder var) with left | right
        · exact Or.inl left
        · exact Or.inr ⟨r, List.mem_cons_self, right⟩
      · exact Or.inr ⟨r', List.mem_cons_of_mem r hr', rfl⟩
    · have first : max m ((a.expression r).diffOrder var) ≤ n := bound (Or.inl rfl)
      rintro k (rfl | ⟨r', hr', rfl⟩)
      · exact (le_max_left _ _).trans first
      · rcases List.mem_cons.mp hr' with rfl | later
        · exact (le_max_right _ _).trans first
        · exact bound (Or.inr ⟨r', later, rfl⟩)

/-- The derivatives of an unknown in a tree are the derivative nodes below it. -/
theorem derivative_mem_parts {h var k : Nat} (inside : h < a.count) :
    .derivative (.leaf var) k ∈ (a.expression h).parts ↔
      ∃ g c, a.Reaches h g ∧ a.node? g = some (.derivative c k) ∧ a.node? c = some (.leaf var) := by
  rw [mem_parts_expression inside]
  constructor
  · rintro ⟨g, reach, eq⟩
    obtain ⟨c, stored, leaf⟩ := exists_derivative_leaf (reach.lt_count inside) eq
    exact ⟨g, c, reach, stored, leaf⟩
  · rintro ⟨g, c, reach, stored, leaf⟩
    refine ⟨g, reach, ?_⟩
    rw [expression_eq stored, expressionOf, expression_eq leaf, expressionOf]

/-! ## The normal form -/

/-- Normal forms that have been found are settled. -/
theorem normalize_settled_ends (wf : a.WellFormed) (inside : ∀ r ∈ roots, r < a.count) :
    Ends (normalize roots) a
      (fun hs b => (b.WellFormed ∧ a.Extends b ∧
        List.Forall₂ (fun r h => Normalize.Normalizes a r b h) roots hs) ∧
        ∀ h ∈ hs, Normalize.Settled b h) fun _ _ => True := by
  apply (normalize_ends wf inside).mono
  · rintro hs b ⟨wf', grown, normal⟩
    refine ⟨⟨wf', grown, normal⟩, ?_⟩
    intro h hh
    obtain ⟨r, -, normalizes⟩ := exists_mem_of_forall₂_right normal hh
    exact ⟨normalizes.inside, Tree.onUnknowns_normalForm normalizes.normalForm,
      normalizes.repeatable wf'⟩
  · exact fun _ _ _ => trivial

/-- **Normalising settles the trees.**  In the trees that it returns all derivatives are ones of
    unknowns.  They have the masks and the orders of the given trees.  The traced order of an
    unknown is the highest derivative of it that occurs in them, or 0.  Normalising them again
    returns them as they are and adds no node. -/
theorem normalize_settles (wf : a.WellFormed) (inside : ∀ r ∈ roots, r < a.count)
    (run : normalize roots a = .ok hs b) :
    (∀ h ∈ hs, ∀ g c k, b.Reaches h g → b.node? g = some (.derivative c k) →
      ∃ var, b.node? c = some (.leaf var)) ∧
    List.Forall₂ (fun r h => (b.info h).mask = (a.info r).mask ∧
      (b.info h).diffOrder = (a.info r).diffOrder) roots hs ∧
    ((b.tracedOrders hs).length = a.size ∧ ∀ var < a.size, ∃ n,
      (b.tracedOrders hs)[var]? = some n ∧ IsGreatest {k | k = 0 ∨ ∃ h ∈ hs, ∃ g c, b.Reaches h g ∧
        b.node? g = some (.derivative c k) ∧ b.node? c = some (.leaf var)} n) ∧
    ∃ c, normalize hs b = .ok hs c ∧ c.nodes = b.nodes := by
  obtain ⟨⟨wf', grown, normal⟩, settled⟩ := (normalize_settled_ends wf inside).of_ok run
  have stored : ∀ h ∈ hs, h < b.count := fun h hh => (settled h hh).inside
  -- shape, metadata, highest orders, and that a second pass has nothing left to do
  refine ⟨?_, ?_, ⟨?_, ?_⟩, ?_⟩
  · intro h hh g c k reach node
    have occurs : Tree.derivative (b.expression c) k ∈ (b.expression h).parts :=
      (mem_parts_expression (stored h hh)).mpr ⟨g, reach, expression_eq node⟩
    obtain ⟨var, leaf⟩ := (settled h hh).plain _ k occurs
    have below := b.child_lt g _ node c (by simp [Node.children])
    exact ⟨var, node?_of_leaf (Nat.lt_trans below (lt_count node)) leaf⟩
  · refine List.forall₂_iff_zip.mpr ⟨normal.length_eq, ?_⟩
    intro r h listed
    have normalizes := List.forall₂_zip normal listed
    exact normalizes.metadata wf wf' grown (inside r (List.of_mem_zip listed).1)
  · rw [length_tracedOrders wf' stored, grown.size]
  · intro var known
    obtain ⟨n, eq, greatest⟩ := tracedOrders_isGreatest wf' stored (grown.size.symm ▸ known)
    refine ⟨n, eq, ?_, ?_⟩
    · rcases greatest.1 with zero | ⟨h, hh, rfl⟩
      · exact Or.inl zero
      · rcases ((settled h hh).plain.isGreatest var).1 with zero | occurs
        · exact Or.inl zero
        · exact Or.inr ⟨h, hh, (derivative_mem_parts (stored h hh)).mp occurs⟩
    · rintro k (rfl | ⟨h, hh, occurs⟩)
      · exact Nat.zero_le n
      · have highest : k ≤ (b.expression h).diffOrder var :=
          ((settled h hh).plain.isGreatest var).2
            (Or.inr ((derivative_mem_parts (stored h hh)).mpr occurs))
        exact highest.trans (greatest.2 (Or.inr ⟨h, hh, rfl⟩))
  · obtain ⟨hs', c, again, rfl, nodes⟩ := (normalize_settled wf' settled).exists_ok
    exact ⟨c, again, nodes⟩

/-- The second derivative of `u + t` becomes `diff(u, 2) + 0`, of order 2. -/
theorem normalize_settles_curvature : ∃ h a hs b, curvature (empty 1) = .ok h a ∧
    normalize [h] a = .ok hs b ∧ b.tracedOrders hs = [2] ∧
    ∃ c, normalize hs b = .ok hs c ∧ c.nodes = b.nodes := by
  obtain ⟨h, a, built, made⟩ := curvature_makes.exists_ok
  have inside : ∀ r ∈ [h], r < a.count := by simpa using made.inside
  obtain ⟨hs, b, run⟩ := exists_normalize_curvature made
  obtain ⟨-, metadata, -, again⟩ := normalize_settles made.wellFormed inside run
  refine ⟨h, a, hs, b, built, run, ?_, again⟩
  obtain ⟨⟨-, grown, -⟩, -⟩ := (normalize_settled_ends made.wellFormed inside).of_ok run
  have size : a.size = 1 := made.grown.size
  have orders : (a.info h).diffOrder = [2] := by
    rw [diffOrder_info made.wellFormed made.inside, size]
    show [(a.tree h).diffOrder 0] = [2]
    rw [← Tree.diffOrder_keyed, ← expression, made.expression]
    decide
  cases metadata with
  | cons first rest =>
    cases rest
    simp [tracedOrders, grown.size, size, first.2, orders]

end Arena

end JetForm
