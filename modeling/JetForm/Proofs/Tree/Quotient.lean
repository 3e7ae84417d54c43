import JetForm.Proofs.Tree.Construction

/-! # Stored nodes and refused quotients

    A constructor that is asked for a stored node finds it.  On stored operands
    the only constructor that can fail is a quotient: a bare tree that is divided
    by a number other than zero records the reciprocal of this number, which may
    be a fault.  `Quotable` says that it is none. -/

namespace JetForm

/-- A computation that is known to have a result. -/
theorem Ends.of_run {ε σ α : Type} {x : EStateM ε σ α} {s s' : σ} {v : α}
    {done : α → σ → Prop} {failed : ε → σ → Prop} (run : x s = .ok v s') (h : done v s') :
    Ends x s done failed := by
  rw [Ends, run]
  exact h

namespace Arena

variable {a b : Arena}

/-- A computation goes on where its first part ends. -/
theorem bind_eq {α β : Type} {x : Building α} {f : α → Building β} {v : α} (run : x a = .ok v b) :
    (x >>= f) a = f v b := by
  show EStateM.bind x f a = f v b
  rw [EStateM.bind, run]

theorem get_bind_eq {β : Type} (f : Arena → Building β) : (MonadState.get >>= f) a = f a a := rfl

theorem checkNode_of_lt {h : Nat} (inside : h < a.count) : checkNode h a = .ok (a.info h) a := by
  have inside : h < a.nodes.size := inside
  rw [checkNode, if_pos inside]

theorem checkValue_of_lt {v : Nat} (inside : v < a.values.size) : checkValue v a = .ok () a := by
  rw [checkValue, if_pos inside]

/-- A node that is stored is found, whatever metadata come with it. -/
theorem internNode_of_stored (wf : a.WellFormed) {node : Node} {h : Nat}
    (stored : a.node? h = some node) (info : Info) : internNode node info a = .ok h a := by
  rw [internNode, (wf.index node h).mpr stored]

/-! ## Quotients -/

/-- A bare tree is not divided by a number without a reciprocal, unless it is
    zero. -/
def Quotable (a : Arena) (op : BinaryOp) (operands : Operands) : Prop :=
  ∀ t v n, op = .rdivide → operands = .treeValue t v → a.isBare t = true →
    a.value v = .number n → n.isZero = false → ∃ r, n.reciprocal = .ok r

theorem Extends.isBare (grown : a.Extends b) {h : Nat} (inside : h < a.count) :
    b.isBare h = a.isBare h := by
  rw [Arena.isBare, Arena.isBare, grown.node_eq inside]

theorem Quotable.grow (grown : a.Extends b) {op : BinaryOp} {operands : Operands}
    (stored : a.OperandsStored operands) (quotable : a.Quotable op operands) :
    b.Quotable op operands := by
  rintro t v n rfl rfl bare number nonzero
  rw [grown.isBare (stored.1 t (by simp [Operands.trees]))] at bare
  rw [(grown.value v (stored.2 v (by simp [Operands.values]))).2] at number
  exact quotable t v n rfl rfl bare number nonzero

/-- The coefficient of a quotient does not touch the nodes. -/
theorem divisorCoeff_nodes (wf : a.WellFormed) (v : Value) :
    Ends (divisorCoeff v) a
      (fun _ b => b.WellFormed ∧ b.nodes = a.nodes ∧
        ∀ n, v = .number n → n.isZero = false → ∃ r, n.reciprocal = .ok r)
      fun e _ => ∃ n f, v = .number n ∧ n.isZero = false ∧ n.reciprocal = .error f ∧
        e = .fault f := by
  cases v with
  | external f =>
    refine Ends.pure ⟨wf, rfl, ?_⟩
    rintro n ⟨⟩
  | number n =>
    rw [divisorCoeff]
    by_cases zero : n.isZero = true
    · rw [if_pos zero]
      refine Ends.pure ⟨wf, rfl, ?_⟩
      rintro m ⟨⟩ nonzero
      rw [zero] at nonzero
      cases nonzero
    · rw [if_neg zero]
      cases inverse : n.reciprocal with
      | error f => exact Ends.throw ⟨n, f, rfl, by simpa using zero, inverse, rfl⟩
      | ok r =>
        refine Ends.bind (Ends.get (Ends.map ?_))
        refine (intern_interns wf _).mono ?_ (fun _ _ => False.elim)
        intro u b interned
        refine ⟨interned.wellFormed, interned.nodes, ?_⟩
        rintro m ⟨⟩ -
        exact ⟨r, inverse⟩

/-- A node on stored children is found if it is stored, and cannot be refused. -/
theorem internNode_exact (wf : b.WellFormed) (nodes : b.nodes = a.nodes) {node : Node}
    (below : ∀ c ∈ node.children, c < a.count) (info : Info) :
    Ends (internNode node info) b
      (fun h c => ∀ g, a.node? g = some node → h = g ∧ c.nodes = a.nodes) fun _ _ => False := by
  refine Ends.intro ?_ ?_
  · intro h c run g stored
    have stored' : b.node? g = some node := by rwa [node?, nodes]
    rw [internNode_of_stored wf stored'] at run
    cases run
    exact ⟨rfl, nodes⟩
  · intro e c run
    have below' : ∀ c ∈ node.children, c < b.nodes.size := by rwa [nodes]
    rw [internNode] at run
    split at run
    next => cases run
    next =>
      rw [dif_pos below'] at run
      cases run

/-- On stored operands an operation fails if and only if it is a quotient without
    a reciprocal, with the fault that this one is, and a stored operation is found
    without a new node. -/
theorem binary_exact (wf : a.WellFormed) (op : BinaryOp) {operands : Operands}
    (stored : a.OperandsStored operands) :
    Ends (binary op operands) a
      (fun h b => a.Quotable op operands ∧
        ∀ g, a.node? g = some (.binary op operands) → h = g ∧ b.nodes = a.nodes)
      fun e _ => ¬ a.Quotable op operands ∧ ∃ f, e = .fault f := by
  have below : ∀ c ∈ (Node.binary op operands).children, c < a.count := stored.1
  have finish : ∀ (info : Info) (b : Arena), b.WellFormed → b.nodes = a.nodes →
      a.Quotable op operands →
      Ends (internNode (.binary op operands) info) b
        (fun h c => a.Quotable op operands ∧
          ∀ g, a.node? g = some (.binary op operands) → h = g ∧ c.nodes = a.nodes)
        fun e _ => ¬ a.Quotable op operands ∧ ∃ f, e = .fault f := by
    intro info b wf' nodes quotable
    apply (internNode_exact wf' nodes below info).mono
    · exact fun h c found => ⟨quotable, found⟩
    · exact fun _ _ => False.elim
  unfold binary
  cases operands with
  | valueTree v t =>
    apply Ends.bind (Ends.of_run (checkValue_of_lt (stored.2 v (by simp [Operands.values]))) ?_)
    apply Ends.bind (Ends.of_run (checkNode_of_lt (stored.1 t (by simp [Operands.trees]))) ?_)
    apply Ends.bind (Ends.get ?_)
    refine finish _ a wf rfl ?_
    rintro t v n - ⟨⟩
  | treeTree l r =>
    apply Ends.bind (Ends.of_run (checkNode_of_lt (stored.1 l (by simp [Operands.trees]))) ?_)
    apply Ends.bind (Ends.of_run (checkNode_of_lt (stored.1 r (by simp [Operands.trees]))) ?_)
    refine finish _ a wf rfl ?_
    rintro t v n - ⟨⟩
  | treeValue t v =>
    apply Ends.bind (Ends.of_run (checkValue_of_lt (stored.2 v (by simp [Operands.values]))) ?_)
    apply Ends.bind (Ends.of_run (checkNode_of_lt (stored.1 t (by simp [Operands.trees]))) ?_)
    apply Ends.bind (Ends.get ?_)
    -- no reciprocal is needed unless the tree is bare and divided
    have unneeded : (a.isBare t = true → op ≠ .rdivide) → a.Quotable op (.treeValue t v) := by
      rintro other _ _ n rfl ⟨⟩ bare
      exact absurd rfl (other bare)
    by_cases bare : a.isBare t = true
    · rw [if_pos bare]
      cases op with
      | plus | minus | power | times =>
        exact Ends.bind (Ends.pure (finish _ a wf rfl (unneeded fun _ => by simp)))
      | rdivide =>
        refine Ends.bind ((divisorCoeff_nodes wf (a.value v)).mono ?_ ?_)
        · rintro coeff b ⟨wf', nodes, inverse⟩
          refine finish _ b wf' nodes ?_
          rintro _ _ n - ⟨⟩ - number nonzero
          exact inverse n number nonzero
        · rintro _ _ ⟨n, f, number, nonzero, inverse, rfl⟩
          refine ⟨?_, f, rfl⟩
          intro quotable
          obtain ⟨r, some⟩ := quotable t v n rfl rfl bare number nonzero
          rw [inverse] at some
          cases some
    · rw [if_neg bare]
      exact Ends.bind (Ends.pure (finish _ a wf rfl (unneeded fun some => absurd some bare)))

theorem mem_trees_mapTrees {operands : Operands} {child : Nat → Nat} {t : Nat} :
    t ∈ (operands.mapTrees child).trees ↔ ∃ c ∈ operands.trees, child c = t := by
  have trees : (operands.mapTrees child).trees = operands.trees.map child :=
    Node.children_mapChildren child (.binary .plus operands)
  rw [trees, List.mem_map]

/-- The operands of a stored operation, with other trees. -/
theorem operandsStored_mapTrees (wf : a.WellFormed) {h : Nat} {op : BinaryOp}
    {operands : Operands} (hn : a.node? h = some (.binary op operands)) {child : Nat → Nat}
    (below : ∀ c ∈ operands.trees, child c < a.count) :
    a.OperandsStored (operands.mapTrees child) := by
  constructor
  · intro t ht
    obtain ⟨c, hc, rfl⟩ := mem_trees_mapTrees.mp ht
    exact below c hc
  · have values : (operands.mapTrees child).values = operands.values :=
      Node.values_mapChildren child (.binary op operands)
    rw [values]
    exact wf.values h _ hn

/-- Recording a node again on stored children fails on quotients only. -/
theorem copyNode_exact (wf : a.WellFormed) {child : Nat → Nat} {h : Nat} {node : Node}
    (hn : a.node? h = some node) (below : ∀ c ∈ node.children, child c < a.count) :
    Ends (copyNode child h node) a
      (fun _ _ => ∀ op operands, node = .binary op operands →
        a.Quotable op (operands.mapTrees child))
      fun e _ => ∃ op operands f,
        node = .binary op operands ∧ ¬ a.Quotable op (operands.mapTrees child) ∧ e = .fault f := by
  cases node with
  | leaf | independent | constant | slot => exact Ends.pure nofun
  | unary op c =>
    apply (unary_makes wf op (below c (by simp [Node.children]))).mono
    · exact fun _ _ _ => nofun
    · exact fun _ _ => False.elim
  | derivative c k =>
    have positive : 0 < k := wf.admissible h _ hn
    apply (derivative_makes wf positive (below c (by simp [Node.children]))).mono
    · exact fun _ _ _ => nofun
    · exact fun _ _ => False.elim
  | binary op operands =>
    have stored := operandsStored_mapTrees wf hn below
    apply (binary_exact wf op stored).mono
    · rintro _ _ ⟨quotable, -⟩ _ _ ⟨⟩
      exact quotable
    · rintro e _ ⟨refused, f, rfl⟩
      exact ⟨op, operands, f, rfl, refused, rfl⟩

end Arena

end JetForm
