import JetForm.Proofs.Tree.NormalForm

/-! # Trees that can be lowered

    The passes in front of a program leave two shapes of trees behind.  In a
    normal tree every derivative is one of an unknown, and there are no state
    entries yet.  A lowered tree has neither unknowns nor derivatives, and reads
    the first entries of the state only.  Pushing derivatives to the unknowns
    leads to the former, and a normal tree without unknowns is lowered. -/

namespace JetForm

namespace Tree

/-- Is every derivative one of an unknown, and is there no state entry? -/
def isNormal : Tree → Bool
  | .leaf _ | .independent | .constant _ => true
  | .slot .. => false
  | .unary _ c => c.isNormal
  | .valueTree _ _ t => t.isNormal
  | .treeValue _ t _ => t.isNormal
  | .treeTree _ l r => l.isNormal && r.isNormal
  | .derivative (.leaf _) _ => true
  | .derivative .. => false

/-- Is the tree made of operations on the independent variable, on values and on
    the first `size` entries of the state? -/
def lowered (size : Nat) : Tree → Bool
  | .leaf _ | .derivative .. => false
  | .independent | .constant _ => true
  | .slot index _ _ => 0 ≤ index && index < size
  | .unary _ c => c.lowered size
  | .valueTree _ _ t => t.lowered size
  | .treeValue _ t _ => t.lowered size
  | .treeTree _ l r => l.lowered size && r.lowered size

/-- Is the tree an unknown, a derivative or a state entry? -/
def isBare : Tree → Bool
  | .leaf _ | .derivative .. | .slot .. => true
  | _ => false

/-! ## Normal trees -/

/-- Without state entries there are none in the normal form, and a derivative
    can only be pushed to an unknown. -/
theorem Pushes.isNormal {k : Nat} {t t' : Tree} (pushes : Pushes k t t')
    (normal : t.isNormal = true) : t'.isNormal = true := by
  induction pushes with
  | leaf | independent | constant => rfl
  | derivative c order =>
    cases c with
    | leaf var => rfl
    | independent | constant | slot | unary | valueTree | treeValue | treeTree | derivative =>
      cases normal
  | sign _ _ ih | afterNumber _ ih | fromNumber _ ih | timesNumber _ ih => exact ih normal
  | beforeNumber _ _ ih | scale _ _ ih => exact ih normal
  | sum _ _ _ ihl ihr =>
    obtain ⟨left, right⟩ := Bool.and_eq_true_iff.mp normal
    simp [Tree.isNormal, ihl left, ihr right]

/-- What is recorded has no state entries, so its normal form is normal. -/
theorem isNormal_normalForm {t t' : Tree} (normal : t.normalForm = some t')
    (recorded : t.recorded = true) : t'.isNormal = true := by
  induction t generalizing t' with
  | leaf | independent =>
    cases normal
    rfl
  | constant | slot => cases recorded
  | derivative c k ih =>
    obtain ⟨c', child, pushed⟩ := Option.bind_eq_some_iff.mp normal
    exact (pushes_of_push pushed).isNormal (ih child recorded)
  | unary op c ih =>
    obtain ⟨c', child, rfl⟩ := Option.map_eq_some_iff.mp normal
    have below := ih child recorded
    exact below
  | valueTree op v c ih =>
    obtain ⟨c', child, rfl⟩ := Option.map_eq_some_iff.mp normal
    have below := ih child (Bool.and_eq_true_iff.mp recorded).2
    exact below
  | treeValue op c v ih =>
    obtain ⟨c', child, rfl⟩ := Option.map_eq_some_iff.mp normal
    have below := ih child (Bool.and_eq_true_iff.mp recorded).1
    exact below
  | treeTree op l r ihl ihr =>
    obtain ⟨l', left, rest⟩ := Option.bind_eq_some_iff.mp normal
    obtain ⟨r', right, rfl⟩ := Option.map_eq_some_iff.mp rest
    obtain ⟨recordedl, recordedr⟩ := Bool.and_eq_true_iff.mp recorded
    simp [isNormal, ihl left recordedl, ihr right recordedr]

theorem isNormal_of_child {t : Tree} (normal : t.isNormal = true) :
    ∀ c ∈ t.children, c.isNormal = true := by
  intro c hc
  cases t with
  | leaf | independent | constant | slot => cases hc
  | unary | valueTree | treeValue =>
    obtain rfl := List.mem_singleton.mp hc
    exact normal
  | treeTree op l r =>
    obtain ⟨left, right⟩ := Bool.and_eq_true_iff.mp normal
    obtain rfl | rfl : c = l ∨ c = r := by simpa [children] using hc
    · exact left
    · exact right
  | derivative d k =>
    obtain rfl := List.mem_singleton.mp hc
    cases c with
    | leaf var => rfl
    | independent | constant | slot | unary | valueTree | treeValue | treeTree | derivative =>
      cases normal

/-! ## Lowered trees -/

/-- A tree with a part that cannot be lowered cannot be lowered either. -/
theorem lowered_of_child {size : Nat} (t : Tree) :
    ∀ c ∈ t.children, c.lowered size = false → t.lowered size = false := by
  intro c hc raised
  cases t with
  | leaf | independent | constant | slot => cases hc
  | derivative => rfl
  | unary | valueTree | treeValue =>
    obtain rfl := List.mem_singleton.mp hc
    exact raised
  | treeTree op l r =>
    obtain rfl | rfl : c = l ∨ c = r := by simpa [children] using hc
    · simp [lowered, raised]
    · simp [lowered, raised]

theorem lowered_mono {m n : Nat} (le : m ≤ n) {t : Tree} (low : t.lowered m = true) :
    t.lowered n = true := by
  induction t with
  | leaf | derivative => cases low
  | independent | constant => rfl
  | slot index var order =>
    have bounds : 0 ≤ index ∧ index < m := by simpa [lowered] using low
    have above : index < n := by omega
    simp [lowered, bounds.1, above]
  | unary op c ih | valueTree op v c ih | treeValue op c v ih => exact ih low
  | treeTree op l r ihl ihr =>
    obtain ⟨left, right⟩ := Bool.and_eq_true_iff.mp low
    simp [lowered, ihl left, ihr right]

/-- A normal tree without unknowns has no derivatives, and reads no state. -/
theorem lowered_of_isNormal {t : Tree} (normal : t.isNormal = true)
    (closed : ∀ var, t.dependsOn var = false) : t.lowered 0 = true := by
  induction t with
  | independent | constant => rfl
  | slot => cases normal
  | leaf var => simpa [dependsOn] using closed var
  | unary op c ih | valueTree op v c ih | treeValue op c v ih => exact ih normal closed
  | treeTree op l r ihl ihr =>
    obtain ⟨left, right⟩ := Bool.and_eq_true_iff.mp normal
    have below : ∀ var, l.dependsOn var = false ∧ r.dependsOn var = false := fun var =>
      Bool.or_eq_false_iff.mp (closed var)
    simp [lowered, ihl left fun var => (below var).1, ihr right fun var => (below var).2]
  | derivative c k =>
    cases c with
    | leaf var => simpa [dependsOn] using closed var
    | independent | constant | slot | unary | valueTree | treeValue | treeTree | derivative =>
      cases normal

/-- Properties of trees that operations inherit from their operands. -/
structure Composed (good : Tree → Bool) : Prop where
  constant : ∀ v, good (.constant v) = true
  unary : ∀ op t, good t = true → good (.unary op t) = true
  valueTree : ∀ op v t, good t = true → good (.valueTree op v t) = true
  treeValue : ∀ op t v, good t = true → good (.treeValue op t v) = true
  treeTree : ∀ op l r, good l = true → good r = true → good (.treeTree op l r) = true

theorem composed_lowered (size : Nat) : Composed (lowered size) :=
  ⟨fun _ => rfl, fun _ _ good => good, fun _ _ _ good => good, fun _ _ _ good => good,
    fun _ _ _ left right => Bool.and_eq_true_iff.mpr ⟨left, right⟩⟩

end Tree

namespace Arena

variable {a : Arena}

theorem isBare_expression {h : Nat} (inside : h < a.count) :
    (a.expression h).isBare = a.isBare h := by
  obtain ⟨node, hn⟩ := node?_isSome.mpr inside
  rw [isBare, hn, expression_eq hn]
  cases node with
  | binary op operands => cases operands <;> rfl
  | leaf | independent | constant | slot | unary | derivative => rfl

end Arena

end JetForm
