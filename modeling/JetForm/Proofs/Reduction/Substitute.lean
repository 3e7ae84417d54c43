import JetForm.Proofs.Tree.Rebuild
import JetForm.Reduction.Substitute

/-! # Substituting state entries

    `Tree.substitute` puts state entries in place of unknowns and their
    derivatives, and the pass over an arena computes it.  Other derivatives, and
    those for which the state has no entry, are refused. -/

namespace JetForm

namespace Tree

variable (r : Registry) (slots : SlotTable)

/-- The state entry for a derivative of an unknown, if it has a slot. -/
def entry (var order : Nat) : Option Tree :=
  (slots.slot? var order).map fun (s : Nat) => .slot s var order

/-- The state entry for the derivative of a tree, which must be an unknown of
    higher order. -/
def derivativeEntry (order : Nat) : Tree → Option Tree
  | .leaf var => r.orders[var]?.bind fun n => if n ≤ order then none else entry slots var order
  | _ => none

/-- The tree with state entries in place of unknowns and their derivatives. -/
def substitute : Tree → Option Tree :=
  rebuild (entry slots · 0) fun c k done => done.bind fun _ => c.derivativeEntry r slots k

/-- A tree with a derivative that is no entry of the state, or one that may meet
    a fault. -/
def Unsubstitutable (t : Tree) : Prop :=
  t.substitute r slots = none ∨ t.hasDivisor = true

variable {r slots}

/-- A derivative that is replaced is one of an unknown of higher order. -/
theorem derivative_of_substitute {c t' : Tree} {k : Nat}
    (substituted : (derivative c k).substitute r slots = some t') :
    ∃ (var : Nat) (n : Int) (s : Nat), c = .leaf var ∧ r.orders[var]? = some n ∧ ¬ n ≤ (k : Int) ∧
      slots.slot? var k = some s ∧ t' = .slot s var k := by
  obtain ⟨c', -, below⟩ := Option.bind_eq_some_iff.mp substituted
  cases c with
  | leaf var =>
    obtain ⟨n, known, lower⟩ := Option.bind_eq_some_iff.mp below
    split at lower
    next => cases lower
    next above =>
      obtain ⟨s, slot, rfl⟩ := Option.map_eq_some_iff.mp lower
      exact ⟨var, n, s, rfl, known, above, slot, rfl⟩
  | independent | constant | slot | unary | valueTree | treeValue | treeTree | derivative =>
    cases below

theorem Unsubstitutable.of_child (t : Tree) :
    ∀ c ∈ t.children, c.Unsubstitutable r slots → t.Unsubstitutable r slots := by
  intro c hc unsubstitutable
  exact unsubstitutable.imp (rebuild_none (fun _ _ => rfl) t c hc) (hasDivisor_of_child t c hc)

end Tree

namespace Substitute

variable {r : Registry} {slots : SlotTable} {a b : Arena}

theorem stateEntry_ends (wf : a.WellFormed) {var : Nat} (inside : var < a.size) (order : Nat) :
    Ends (stateEntry slots var order) a
      (fun h a' => ∃ t, Tree.entry slots var order = some t ∧ a.Makes t h a')
      fun _ _ => Tree.entry slots var order = none := by
  refine Ends.bind (Ends.ofExcept ?_)
  simp only [SlotTable.slot, Tree.entry]
  cases slots.slot? var order with
  | none => rfl
  | some s =>
    refine (Arena.slot_makes wf s order inside).mono ?_ fun _ _ => False.elim
    exact fun h a' made => ⟨_, rfl, made⟩

theorem derivative_ends (wf : a.WellFormed) {c : Nat} {child : Node} (hc : a.node? c = some child)
    (order : Nat) :
    Ends (derivative r slots (some child) order) a
      (fun h a' => ∃ t, (a.expression c).derivativeEntry r slots order = some t ∧ a.Makes t h a')
      fun _ _ => (a.expression c).derivativeEntry r slots order = none := by
  rw [Arena.expression_eq hc]
  cases child with
  | leaf var =>
    refine Ends.bind (Ends.ofExcept ?_)
    simp only [Registry.order, Arena.expressionOf, Tree.derivativeEntry]
    cases r.orders[var]? with
    | none => rfl
    | some n =>
      simp only [Option.bind_some, Ended]
      by_cases high : n ≤ order
      · rw [if_pos high, if_pos high]
        exact Ends.throw rfl
      · rw [if_neg high, if_neg high]
        exact stateEntry_ends wf (wf.admissible c _ hc) order
  | binary op operands => cases operands <;> exact Ends.throw rfl
  | independent | constant | slot | unary | derivative => exact Ends.throw rfl

/-- Meeting a node substitutes in it. -/
theorem meet_ends {roots before : List Nat} {h : Nat} {node : Node} {memo : Memo}
    (turn : a.Turn roots before h node)
    (swept : Arena.Swept (Tree.substitute r slots) a before memo b) :
    Ends (meet a r slots h node memo) b
      (fun p => Arena.Swept (Tree.substitute r slots) a (before ++ [h]) p.2)
      fun _ _ => (b.expression h).Unsubstitutable r slots := by
  have wf := swept.wellFormed
  have hn := swept.grown.node h node turn.stored
  have inside := Arena.lt_count hn
  have expression := Arena.expression_eq hn
  refine Ends.bindState (Ends.getState ?_)
  -- a node the memo holds was met as a child before and is skipped
  by_cases known : memo.contains h
  · rw [if_pos known]
    exact Ends.pureState (swept.skip (Std.HashMap.mem_iff_contains.mpr known))
  rw [if_neg known]
  -- every branch ends by recording what it built; the cases differ only in what that is
  have record : ∀ p b', (∃ t, (b.expression h).substitute r slots = some t ∧ b.Makes t p b') →
      Arena.Swept (Tree.substitute r slots) a (before ++ [h]) (memo.insert h p) b' := by
    rintro p b' ⟨t, substituted, made⟩
    exact swept.record inside made substituted
  cases node with
  | leaf var =>
    refine Ends.bindState (Ends.liftState ((stateEntry_ends wf (wf.admissible h _ hn) 0).mono
      ?_ ?_))
    · intro p b' made
      refine Ends.modifyState (record p b' ?_)
      rw [expression]
      exact made
    · intro _ _ none
      refine Or.inl ?_
      rw [expression]
      exact none
  | derivative c k =>
    have mem := turn.children c (by simp [Node.children])
    obtain ⟨q, -, -, substituted⟩ := swept.known mem
    have hc : c < a.count :=
      Nat.lt_trans (a.child_lt h _ turn.stored c (by simp [Node.children]))
        (Arena.lt_count turn.stored)
    obtain ⟨child, stored⟩ := Arena.node?_isSome.mpr hc
    have shape : (b.expression h).substitute r slots =
        (b.expression c).derivativeEntry r slots k := by
      rw [expression]
      show ((b.expression c).substitute r slots).bind _ = _
      rw [substituted, Option.bind_some]
    dsimp only
    rw [stored]
    refine Ends.bindState (Ends.liftState ((derivative_ends wf
      (swept.grown.node c child stored) k).mono ?_ ?_))
    · intro p b' made
      exact Ends.modifyState (record p b' (shape ▸ made))
    · exact fun _ _ none => Or.inl (shape ▸ none)
  | independent | constant | slot | unary | binary =>
    refine Ends.bindState (Ends.liftState ((Arena.copyNode_rebuilds turn swept (by simp)
      (by simp)).mono ?_ ?_))
    · exact fun p b' made => Ends.modifyState (record p b' made)
    · exact fun _ _ => Or.inr

/-- Substituting in a tree of an arena gives what `Tree.substitute` gives. -/
theorem root_ends (wf : a.WellFormed) {h : Nat} (inside : h < a.count) {memo : Memo}
    (known : Arena.Remembers (Tree.substitute r slots) memo a) :
    Ends (root r slots h memo) a
      (fun p a' => (∃ t, (a.expression h).substitute r slots = some t ∧ a.Makes t p.1 a') ∧
        Arena.Remembers (Tree.substitute r slots) p.2 a')
      fun _ _ => (a.expression h).Unsubstitutable r slots := by
  have roots : ∀ g ∈ [h], g < a.count := by simpa using inside
  have start : Arena.Swept (Tree.substitute r slots) a [] memo a :=
    ⟨wf, Arena.Extends.refl a, known, by simp⟩
  refine Ends.bindState (Ends.liftState (Ends.get ?_))
  refine Ends.bindState ((Arena.ends_sweepState roots
    (fun before p b => Arena.Swept (Tree.substitute r slots) a before p.2 b) start ?_).weaken ?_)
  · intro before g node _ memo b turn swept
    refine (meet_ends turn swept).mono (fun _ _ => id) ?_
    intro _ _ unsubstitutable
    have reach := turn.reaches
    rw [swept.grown.expression wf (reach.lt_count inside)] at unsubstitutable
    exact Arena.expression_of_reaches Tree.Unsubstitutable.of_child reach unsubstitutable
  · rintro ⟨_, memo'⟩ b swept
    have listed : h ∈ a.postorder [h] :=
      (Arena.mem_postorder roots).mpr ⟨h, by simp, Arena.Reaches.refl a h⟩
    obtain ⟨p, found, hp, substituted⟩ := swept.known listed
    refine Ends.bindState (Ends.getState (Ends.pureState ⟨?_, swept.remembers⟩))
    dsimp only
    rw [found, Option.getD_some]
    rw [swept.grown.expression wf inside] at substituted
    exact ⟨_, substituted, swept.wellFormed, swept.grown, hp, rfl⟩

end Substitute

end JetForm
