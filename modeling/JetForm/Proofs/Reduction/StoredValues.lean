import JetForm.Proofs.Reduction.Acceptance
import JetForm.Proofs.Reduction.Entries

/-! # Trees from expressions

    The expression of a node has the keys of values in place of the values.  An
    arena stores one value for each key, so that nothing is lost: the tree can be
    read off the expression, also in an arena that has grown since, as long as no
    other values occur in it. -/

namespace JetForm

namespace Tree

/-- The tree with other values in the places of its values. -/
def mapValues (f : Value → Value) : Tree → Tree
  | .constant v => .constant (f v)
  | .unary op child => .unary op (child.mapValues f)
  | .valueTree op v child => .valueTree op (f v) (child.mapValues f)
  | .treeValue op child v => .treeValue op (child.mapValues f) (f v)
  | .treeTree op left right => .treeTree op (left.mapValues f) (right.mapValues f)
  | .derivative child order => .derivative (child.mapValues f) order
  | t => t

theorem mapValues_keyed {f : Value → Value} {t : Tree} (restores : ∀ v ∈ t.values, f v.key = v) :
    t.keyed.mapValues f = t := by
  induction t <;> simp_all [keyed, mapValues, values]

/-- A meaning that does not tell the values apart gives both trees the same one. -/
theorem denote_mapValues {α : Type} {m : Meaning α} {f : Value → Value}
    (same : ∀ v, m.value (f v) = m.value v) (t : Tree) : (t.mapValues f).denote m = t.denote m := by
  induction t <;> simp_all [mapValues, denote]

variable {r : Registry} {slots : SlotTable}

/-- State entries have no values. -/
theorem values_substitute {t t' : Tree} (substituted : t.substitute r slots = some t') :
    ∀ v ∈ t'.values, v ∈ t.values := by
  have replaces := replaces_of_substitute substituted
  clear substituted
  induction replaces with
  | leaf | derivative => simp [values]
  | independent | constant | slot => exact fun _ => id
  | unary op _ ih => exact ih
  | valueTree op u _ ih | treeValue op u _ ih =>
    intro v hv
    rcases List.mem_cons.mp hv with rfl | hv
    · exact List.mem_cons_self
    · exact List.mem_cons_of_mem _ (ih v hv)
  | treeTree op _ _ ihl ihr =>
    intro v hv
    rcases List.mem_append.mp hv with hv | hv
    · exact List.mem_append_left _ (ihl v hv)
    · exact List.mem_append_right _ (ihr v hv)

/-- Replacing does not look at the values. -/
theorem Replaces.mapValues {t t' : Tree} (replaces : Replaces slots t t') (f : Value → Value) :
    Replaces slots (t.mapValues f) (t'.mapValues f) := by
  induction replaces with
  | leaf entry => exact .leaf entry
  | independent => exact .independent
  | constant v => exact .constant (f v)
  | slot index var order => exact .slot index var order
  | unary op _ ih => exact .unary op ih
  | valueTree op v _ ih => exact .valueTree op (f v) ih
  | treeValue op v _ ih => exact .treeValue op (f v) ih
  | treeTree op _ _ ihl ihr => exact .treeTree op ihl ihr
  | derivative entry => exact .derivative entry

end Tree

namespace Arena

variable {a b : Arena}

/-- The function gives back the stored values for their keys. -/
def Restores (a : Arena) (f : Value → Value) : Prop :=
  ∀ i < a.values.size, f (a.value i).key = a.value i

theorem exists_restores (wf : a.WellFormed) :
    ∃ f, a.Restores f ∧ ∀ v, f v = v ∨ (f v).key = v := by
  classical
  let f : Value → Value := fun v =>
    if stored : ∃ i, i < a.values.size ∧ (a.value i).key = v then a.value stored.choose else v
  refine ⟨f, ?_, ?_⟩
  · intro i hi
    have known : ∃ j, j < a.values.size ∧ (a.value j).key = (a.value i).key := ⟨i, hi, rfl⟩
    have first : f (a.value i).key = a.value known.choose := dif_pos known
    rw [first, value_injective wf known.choose_spec.1 hi known.choose_spec.2]
  · intro v
    by_cases known : ∃ i, i < a.values.size ∧ (a.value i).key = v
    · right
      have first : f v = a.value known.choose := dif_pos known
      rw [first, known.choose_spec.2]
    · exact Or.inl (dif_neg known)

/-- The values in an expression are keys of stored ones. -/
theorem stored_of_values_expression (wf : a.WellFormed) {h : Nat} (inside : h < a.count) :
    ∀ k ∈ (a.expression h).values, ∃ i < a.values.size, (a.value i).key = k := by
  intro k hk
  rw [expression, Tree.values_keyed] at hk
  obtain ⟨v, hv, rfl⟩ := List.mem_map.mp hk
  obtain ⟨i, hi, rfl⟩ := stored_of_values wf inside v hv
  exact ⟨i, hi, rfl⟩

/-- A tree of old values in an arena that has grown. -/
theorem Extends.mapValues {f : Value → Value} (restores : a.Restores f) (grown : a.Extends b)
    (wf : b.WellFormed) {p : Nat} (inside : p < b.count)
    (old : ∀ k ∈ (b.expression p).values, ∃ i < a.values.size, (a.value i).key = k) :
    (b.expression p).mapValues f = b.tree p := by
  apply Tree.mapValues_keyed
  intro v hv
  -- the value is stored in the larger arena, and its key in the smaller one, so they are the same
  obtain ⟨j, hj, rfl⟩ := stored_of_values wf inside v hv
  have listed : (b.value j).key ∈ (b.expression p).values := by
    rw [Arena.expression, Tree.values_keyed]
    exact List.mem_map_of_mem hv
  obtain ⟨i, hi, key⟩ := old _ listed
  obtain ⟨hi', same⟩ := grown.value i hi
  rw [value_injective wf hj hi' (by rw [same, key]), same, restores i hi]

/-- The trees of an arena can be read off their expressions. -/
theorem Restores.mapValues {f : Value → Value} (restores : a.Restores f) (wf : a.WellFormed)
    {h : Nat} (inside : h < a.count) : (a.expression h).mapValues f = a.tree h :=
  (Extends.refl a).mapValues restores wf inside (stored_of_values_expression wf inside)

/-- Nor are values lost where state entries have been put into a tree. -/
theorem Restores.mapValues_substituted {f : Value → Value} (restores : a.Restores f)
    (wf : a.WellFormed) {r : Registry} {slots : SlotTable} {h p : Nat} (inside : h < a.count)
    {t : Tree} (substituted : (a.expression h).substitute r slots = some t)
    (made : a.Makes t p b) : t.mapValues f = b.tree p := by
  obtain rfl := made.expression
  apply made.grown.mapValues restores made.wellFormed made.inside
  intro k hk
  exact stored_of_values_expression wf inside k (Tree.values_substitute substituted k hk)

/-- Values that depend on the key alone are not changed by restoring. -/
theorem value_of_restored {α : Type} {f : Value → Value} (restored : ∀ v, f v = v ∨ (f v).key = v)
    {value : Value → α} (key : ∀ v, value v.key = value v) (v : Value) : value (f v) = value v := by
  rcases restored v with same | same
  · rw [same]
  · rw [← key (f v), same]

end Arena

end JetForm
