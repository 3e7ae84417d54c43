import JetForm.Proofs.Tree.Solid
import JetForm.Tree.Adopt

/-! # Copies are the same expressions

    A tree that is copied into another arena gets a handle of the same
    expression there.  During the pass `Copied` holds: all nodes met so far have
    a copy. -/

namespace JetForm

namespace Arena

/-- What holds during a pass over `source`: all nodes met so far have a copy. -/
structure Copied (source a : Arena) (before : List Nat) (copied : Std.HashMap Nat Nat)
    (b : Arena) : Prop where
  wellFormed : b.WellFormed
  grown : a.Extends b
  done : ∀ g ∈ before, ∃ r, copied[g]? = some r ∧ r < b.count ∧
    b.expression r = source.expression g

variable {source a b : Arena} {before : List Nat} {copied : Std.HashMap Nat Nat}

/-- The copy of the next node joins the others. -/
theorem Copied.record (done : Copied source a before copied b) {h r : Nat} {c : Arena}
    (made : b.Makes (source.expression h) r c) :
    Copied source a (before ++ [h]) (copied.insert h r) c := by
  refine ⟨made.wellFormed, done.grown.trans made.grown, ?_⟩
  intro g hg
  rw [Std.HashMap.getElem?_insert]
  by_cases same : h = g
  · subst same
    exact ⟨r, by simp, made.inside, made.expression⟩
  · have earlier : g ∈ before := by
      rcases List.mem_append.mp hg with hg | hg
      · exact hg
      · exact absurd (List.mem_singleton.mp hg).symm same
    obtain ⟨q, eq, hq, expression⟩ := done.done g earlier
    refine ⟨q, by simpa [same] using eq, made.grown.lt_count hq, ?_⟩
    rw [made.grown.expression done.wellFormed hq, expression]

/-- A node that has been met is the same expression as its copy. -/
theorem Copied.copy (done : Copied source a before copied b) {c : Nat} (met : c ∈ before) :
    copied[c]?.getD c < b.count ∧ b.expression (copied[c]?.getD c) = source.expression c := by
  obtain ⟨r, eq, inside, expression⟩ := done.done c met
  rw [eq]
  exact ⟨inside, expression⟩

/-- The copy of a node whose children have copies.  It fails only for a tree that is
    not solid. -/
theorem rebuild_exact (wf : source.WellFormed) (size : source.size = b.size)
    (done : Copied source a before copied b) {h : Nat} {node : Node}
    (hn : source.node? h = some node) (children : ∀ c ∈ node.children, c ∈ before) :
    Ends (source.rebuild copied node) b (fun r c => b.Makes (source.expression h) r c)
      fun _ _ => (source.expression h).solid = false := by
  have wf' := done.wellFormed
  have admissible := wf.admissible h node hn
  rw [expression_eq hn]
  unfold rebuild
  cases node with
  | leaf var =>
    exact (leaf_makes wf' (size ▸ admissible)).mono (fun _ _ => id) fun _ _ => False.elim
  | independent => exact (independent_makes wf').mono (fun _ _ => id) fun _ _ => False.elim
  | constant v => exact (constantOf_makes wf' _).mono (fun _ _ => id) fun _ _ => False.elim
  | slot index var order =>
    exact (slot_makes wf' index order (size ▸ admissible)).mono (fun _ _ => id) fun _ _ => False.elim
  | unary op c =>
    obtain ⟨hc, same⟩ := done.copy (children c (by simp [Node.children]))
    apply (unary_makes wf' op hc).mono ?_ fun _ _ => False.elim
    intro r d made
    rwa [same] at made
  | derivative c k =>
    obtain ⟨hc, same⟩ := done.copy (children c (by simp [Node.children]))
    apply (derivative_makes wf' admissible hc).mono ?_ fun _ _ => False.elim
    intro r d made
    rwa [same] at made
  | binary op operands =>
    cases operands with
    | treeTree l r =>
      obtain ⟨hl, left⟩ := done.copy (children l (by simp [Node.children, Operands.trees]))
      obtain ⟨hr, right⟩ := done.copy (children r (by simp [Node.children, Operands.trees]))
      apply (treeTree_makes wf' op hl hr).mono ?_ fun _ _ => False.elim
      intro r d made
      rwa [left, right] at made
    -- the value is interned first, which leaves the copy of the child as it is
    | valueTree v t =>
      obtain ⟨ht, same⟩ := done.copy (children t (by simp [Node.children, Operands.trees]))
      apply Ends.bind
      apply (intern_interns wf' _).mono ?_ fun _ _ => False.elim
      intro v' d interned
      have ht' := interned.grown.lt_count ht
      apply (valueTree_makes interned.wellFormed op interned.inside ht').mono ?_
        fun _ _ => False.elim
      intro r d made
      rw [interned.key, interned.grown.expression wf' ht, same] at made
      exact made.after interned.grown
    | treeValue t v =>
      obtain ⟨ht, same⟩ := done.copy (children t (by simp [Node.children, Operands.trees]))
      apply Ends.bind
      apply (intern_interns wf' _).mono ?_ fun _ _ => False.elim
      intro v' d interned
      have ht' := interned.grown.lt_count ht
      apply (treeValue_exact interned.wellFormed op ht' interned.inside).mono
      · rintro r d ⟨made, -⟩
        rw [interned.key, interned.grown.expression wf' ht, same] at made
        exact made.after interned.grown
      · rintro _ _ ⟨refused, -⟩
        rw [interned.grown.expression wf' ht, same, interned.key] at refused
        simp [expressionOf, Tree.solid, refused]

/-- What the copies of single nodes preserve, copying preserves.  There is no copy only
    of a tree that is not solid, and between registries of different sizes. -/
theorem adopt_pass (source_wf : source.WellFormed) (wf : a.WellFormed) {h : Nat}
    (inside : h < source.count) (kept : Arena → Prop) (start : kept a)
    (step : ∀ before g node copied b, source.Turn [h] before g node → source.size = b.size →
      Copied source a before copied b → kept b →
      Ends (source.rebuild copied node) b (fun _ c => kept c) fun _ _ => True) :
    Ends (source.adopt h) a (fun r b => a.Makes (source.expression h) r b ∧ kept b)
      fun _ _ => source.size ≠ a.size ∨ (source.expression h).solid = false := by
  unfold adopt
  refine Ends.bind (Ends.get ?_)
  show Ends (if source.size ≠ a.size then _ else _) _ _ _
  split
  case isTrue different => exact Or.inl different
  case isFalse same =>
    have size : source.size = a.size := not_not.mp same
    have below : ∀ r ∈ [h], r < source.count := by simpa using inside
    apply Ends.bind
    apply (ends_sweep below (fun before copied b => Copied source a before copied b ∧ kept b)
      ⟨⟨wf, Extends.refl a, by simp⟩, start⟩ ?_).weaken
    · rintro copied b ⟨done, keeps⟩
      have listed : h ∈ source.postorder [h] :=
        (mem_postorder below).mpr ⟨h, by simp, Reaches.refl source h⟩
      obtain ⟨r, eq, hr, expression⟩ := done.done h listed
      show a.Makes (source.expression h) (copied[h]?.getD h) b ∧ kept b
      rw [eq]
      exact ⟨⟨done.wellFormed, done.grown, hr, expression⟩, keeps⟩
    · rintro before g node copied b turn ⟨done, keeps⟩
      have size' : source.size = b.size := size.trans done.grown.size.symm
      apply Ends.bind
      apply ((rebuild_exact source_wf size' done turn.stored turn.children).and
        (step before g node copied b turn size' done keeps)).mono
      · exact fun r c known => Ends.pure ⟨done.record known.1, known.2⟩
      · rintro _ _ ⟨broken, -⟩
        -- a tree with a part that is not solid is not solid either
        refine Or.inr (expression_of_reaches (P := fun t => t.solid = false) ?_ turn.reaches broken)
        intro t c hc broken
        rw [← Bool.not_eq_true] at broken ⊢
        exact fun solid => broken (Tree.solid_of_child solid c hc)

/-- **Copying is exact.**  A copy is the same expression. -/
theorem adopt_exact (source_wf : source.WellFormed) (wf : a.WellFormed) {h : Nat}
    (inside : h < source.count) :
    Ends (source.adopt h) a (fun r b => a.Makes (source.expression h) r b)
      fun _ _ => source.size ≠ a.size ∨ (source.expression h).solid = false := by
  apply (adopt_pass source_wf wf inside (fun _ => True) trivial ?_).weaken
  · exact fun _ _ => And.left
  · intro before g node copied b turn size done _
    apply (rebuild_exact source_wf size done turn.stored turn.children).mono
    · exact fun _ _ _ => trivial
    · exact fun _ _ _ => trivial

end Arena

end JetForm
