import JetForm.Proofs.Tree.Construction

/-! # Rebuilding trees

    Passes that rebuild a tree inside its arena differ in what they make of
    unknowns and derivatives only; all other operations are recorded again on
    the rebuilt operands.  `Tree.rebuild` is such a pass on trees.

    A pass over an arena keeps a memory of what has been rebuilt.  `Remembers`
    says that it is right, and `Swept` is what holds while the pass goes on. -/

namespace JetForm

namespace Tree

variable {leaf : Nat → Option Tree} {diff : Tree → Nat → Option Tree → Option Tree}

/-- Rebuild a tree; `leaf` and `diff` say what becomes of unknowns and of
    derivatives, the latter from the child and the rebuilt child. -/
def rebuild (leaf : Nat → Option Tree) (diff : Tree → Nat → Option Tree → Option Tree) :
    Tree → Option Tree
  | .leaf var => leaf var
  | .independent => some .independent
  | .constant v => some (.constant v)
  | .slot index var order => some (.slot index var order)
  | .unary op c => (c.rebuild leaf diff).map (.unary op)
  | .valueTree op v t => (t.rebuild leaf diff).map (.valueTree op v)
  | .treeValue op t v => (t.rebuild leaf diff).map (.treeValue op · v)
  | .treeTree op l r =>
    (l.rebuild leaf diff).bind fun l => (r.rebuild leaf diff).map (.treeTree op l)
  | .derivative c k => diff c k (c.rebuild leaf diff)

/-- A tree cannot be rebuilt if a part of it cannot. -/
theorem rebuild_none (strict : ∀ c k, diff c k none = none) (t : Tree) :
    ∀ c ∈ t.children, c.rebuild leaf diff = none → t.rebuild leaf diff = none := by
  intro c hc none
  cases t with
  | leaf | independent | constant | slot => cases hc
  | unary | valueTree | treeValue =>
    obtain rfl := List.mem_singleton.mp hc
    simp [rebuild, none]
  | derivative =>
    obtain rfl := List.mem_singleton.mp hc
    rw [rebuild, none, strict]
  | treeTree op l r =>
    obtain rfl | rfl : c = l ∨ c = r := by simpa [children] using hc
    · simp [rebuild, none]
    · simp [rebuild, none]

/-- What rebuilding preserves, if it does so at unknowns and derivatives.  These
    may have another meaning afterwards.  `Q` is what is known of the tree and of
    all its parts. -/
theorem rebuild_denote {α : Type u} {m : Meaning α} {unknown : Nat → α} {differentiate : Nat → α → α}
    {Q : Tree → Prop} (parts : ∀ t, Q t → ∀ c ∈ t.children, Q c)
    (leaves : ∀ var t', Q (.leaf var) → leaf var = some t' →
      t'.denote { m with leaf := unknown, derivative := differentiate } = m.leaf var)
    (derivatives : ∀ c k c' t', Q (.derivative c k) → c.rebuild leaf diff = c' →
      (∀ t', c' = some t' →
        t'.denote { m with leaf := unknown, derivative := differentiate } = c.denote m) →
      diff c k c' = some t' → t'.denote { m with leaf := unknown, derivative := differentiate } =
        m.derivative k (c.denote m))
    {t t' : Tree} (known : Q t) (rebuilt : t.rebuild leaf diff = some t') :
    t'.denote { m with leaf := unknown, derivative := differentiate } = t.denote m := by
  induction t generalizing t' with
  | leaf var => exact leaves var t' known rebuilt
  | independent | constant | slot =>
    cases rebuilt
    rfl
  | unary op c ih | valueTree op v c ih | treeValue op c v ih =>
    obtain ⟨c', child, rfl⟩ := Option.map_eq_some_iff.mp rebuilt
    simp only [denote, ih (parts _ known c (by simp [children])) child]
  | treeTree op l r ihl ihr =>
    obtain ⟨l', left, rest⟩ := Option.bind_eq_some_iff.mp rebuilt
    obtain ⟨r', right, rfl⟩ := Option.map_eq_some_iff.mp rest
    simp only [denote, ihl (parts _ known l (by simp [children])) left,
      ihr (parts _ known r (by simp [children])) right]
  | derivative c k ih =>
    exact derivatives c k _ t' known rfl
      (fun t' child => ih (parts _ known c (by simp [children])) child) rebuilt

/-! ## Quotients with values -/

/-- Does a value divide some part of the tree?  Reciprocals of numbers may be
    faults. -/
def hasDivisor : Tree → Bool
  | .leaf _ | .independent | .constant _ | .slot .. => false
  | .unary _ c => c.hasDivisor
  | .treeTree _ l r => l.hasDivisor || r.hasDivisor
  | .valueTree _ _ t => t.hasDivisor
  | .treeValue op t _ => op = .rdivide || t.hasDivisor
  | .derivative c _ => c.hasDivisor

@[simp] theorem hasDivisor_keyed (t : Tree) : t.keyed.hasDivisor = t.hasDivisor := by
  induction t <;> simp_all [keyed, hasDivisor]

theorem hasDivisor_of_child (t : Tree) :
    ∀ c ∈ t.children, c.hasDivisor = true → t.hasDivisor = true := by
  intro c hc divides
  cases t with
  | leaf | independent | constant | slot => cases hc
  | unary | valueTree | derivative =>
    obtain rfl := List.mem_singleton.mp hc
    exact divides
  | treeValue op t v =>
    obtain rfl := List.mem_singleton.mp hc
    simp [hasDivisor, divides]
  | treeTree op l r =>
    obtain rfl | rfl : c = l ∨ c = r := by simpa [children] using hc
    · simp [hasDivisor, divides]
    · simp [hasDivisor, divides]

end Tree

/-! ## Rebuilding inside an arena -/

namespace Arena

variable {leaf : Nat → Option Tree} {diff : Tree → Nat → Option Tree → Option Tree}

/-- Rebuilding a node that is no unknown and no derivative. -/
theorem rebuild_expressionOf {a : Arena} {node : Node} {f : Nat → Nat}
    (known : ∀ var, node ≠ .leaf var) (operation : ∀ c k, node ≠ .derivative c k)
    (children : ∀ c ∈ node.children,
      (a.expression c).rebuild leaf diff = some (a.expression (f c))) :
    (a.expressionOf node).rebuild leaf diff = some (a.expressionOf (node.mapChildren f)) := by
  cases node with
  | leaf var => exact absurd rfl (known var)
  | derivative c k => exact absurd rfl (operation c k)
  | independent | constant | slot => rfl
  | unary op c =>
    simp only [expressionOf, Node.mapChildren, Tree.rebuild, children c (by simp [Node.children]),
      Option.map_some]
  | binary op operands =>
    cases operands with
    | valueTree v t | treeValue t v =>
      simp only [expressionOf, Node.mapChildren, Operands.mapTrees, Tree.rebuild,
        children t (by simp [Node.children, Operands.trees]), Option.map_some]
    | treeTree l r =>
      simp only [expressionOf, Node.mapChildren, Operands.mapTrees, Tree.rebuild,
        children l (by simp [Node.children, Operands.trees]),
        children r (by simp [Node.children, Operands.trees]), Option.map_some, Option.bind_some]

/-- The memory holds rebuilt trees. -/
def Remembers (f : Tree → Option Tree) (memo : Std.HashMap Nat Nat) (a : Arena) : Prop :=
  ∀ h r, memo[h]? = some r →
    h < a.count ∧ r < a.count ∧ f (a.expression h) = some (a.expression r)

variable {f : Tree → Option Tree} {memo : Std.HashMap Nat Nat} {a b : Arena}

theorem remembers_empty : Remembers f ∅ a := by
  intro h r eq
  simp at eq

theorem Remembers.grow (known : Remembers f memo a) (wf : a.WellFormed) (grown : a.Extends b) :
    Remembers f memo b := by
  intro h r eq
  obtain ⟨hh, hr, result⟩ := known h r eq
  refine ⟨grown.lt_count hh, grown.lt_count hr, ?_⟩
  rw [grown.expression wf hh, grown.expression wf hr, result]

theorem Remembers.insert (known : Remembers f memo a) {h r : Nat} (hh : h < a.count)
    (hr : r < a.count) (result : f (a.expression h) = some (a.expression r)) :
    Remembers f (memo.insert h r) a := by
  intro g q eq
  rw [Std.HashMap.getElem?_insert] at eq
  split at eq
  next same =>
    cases eq
    obtain rfl := beq_iff_eq.mp same
    exact ⟨hh, hr, result⟩
  next => exact known g q eq

/-- What holds during a pass: all nodes met so far are rebuilt. -/
structure Swept (f : Tree → Option Tree) (a : Arena) (before : List Nat)
    (memo : Std.HashMap Nat Nat) (b : Arena) : Prop where
  wellFormed : b.WellFormed
  grown : a.Extends b
  remembers : Remembers f memo b
  done : ∀ g ∈ before, g ∈ memo

namespace Swept

variable {before : List Nat}

theorem known (swept : Swept f a before memo b) {g : Nat} (hg : g ∈ before) :
    ∃ r, memo[g]? = some r ∧ r < b.count ∧ f (b.expression g) = some (b.expression r) := by
  have mem := swept.done g hg
  have eq := Std.HashMap.getElem?_eq_some_getElem mem
  exact ⟨memo[g], eq, (swept.remembers g _ eq).2⟩

/-- A node that has been rebuilt before. -/
theorem skip (swept : Swept f a before memo b) {h : Nat} (mem : h ∈ memo) :
    Swept f a (before ++ [h]) memo b := by
  refine { swept with done := fun g hg => ?_ }
  rcases List.mem_append.mp hg with hg | hg
  · exact swept.done g hg
  · obtain rfl := List.mem_singleton.mp hg
    exact mem

/-- Remembering the next node. -/
theorem record (swept : Swept f a before memo b) {h r : Nat} {t : Tree} {c : Arena}
    (inside : h < b.count) (made : b.Makes t r c) (rebuilt : f (b.expression h) = some t) :
    Swept f a (before ++ [h]) (memo.insert h r) c := by
  refine ⟨made.wellFormed, swept.grown.trans made.grown, ?_, ?_⟩
  · refine (swept.remembers.grow swept.wellFormed made.grown).insert
      (made.grown.lt_count inside) made.inside ?_
    rw [made.grown.expression swept.wellFormed inside, rebuilt, made.expression]
  · intro g hg
    rw [Std.HashMap.mem_insert]
    rcases List.mem_append.mp hg with hg | hg
    · exact Or.inr (swept.done g hg)
    · exact Or.inl (by simpa using (List.mem_singleton.mp hg).symm)

end Swept

/-- The rebuilt form of a node that is no unknown and no derivative. -/
theorem copyNode_rebuilds {roots before : List Nat} {h : Nat} {node : Node}
    (turn : a.Turn roots before h node)
    (swept : Swept (Tree.rebuild leaf diff) a before memo b)
    (known : ∀ var, node ≠ .leaf var) (operation : ∀ c k, node ≠ .derivative c k) :
    Ends (copyNode (fun c => memo[c]?.getD c) h node) b
      (fun r b' => ∃ t, (b.expression h).rebuild leaf diff = some t ∧ b.Makes t r b')
      fun _ _ => (b.expression h).hasDivisor = true := by
  have hn := swept.grown.node h node turn.stored
  have child : ∀ c ∈ node.children, memo[c]?.getD c < b.count ∧
      (b.expression c).rebuild leaf diff = some (b.expression (memo[c]?.getD c)) := by
    intro c hc
    obtain ⟨r, eq, hr, rebuilt⟩ := swept.known (turn.children c hc)
    rw [eq]
    exact ⟨hr, rebuilt⟩
  rw [expression_eq hn]
  refine (copyNode_makes swept.wellFormed hn fun c hc => (child c hc).1).mono ?_ ?_
  · intro r b' made
    exact ⟨_, rebuild_expressionOf known operation fun c hc => (child c hc).2, made⟩
  · rintro _ _ ⟨t, v, rfl⟩
    simp [expressionOf, Tree.hasDivisor]

end Arena

end JetForm
