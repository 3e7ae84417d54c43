import JetForm.Proofs.Tree.Adopt
import JetForm.Proofs.Tree.Paths
import JetForm.Proofs.Tree.Sharing

/-! # Trees survive being copied

    A copy fails for a tree that is not solid.  An arena that calls can reach
    holds no such tree: it has recorded each of its operations, so each of them
    can be recorded again, there and in any other arena.  `Renewable` is this
    invariant.

    A constructor stores one node at most, and returns its handle.  So where the
    tree that is copied is there already, nothing is stored and its own handle
    comes back, for equal expressions share a handle.  That settles a second
    copy as well as the way back of a copy to where it came from. -/

namespace JetForm

namespace Arena

variable {a b source : Arena}

/-! ## One node at a time -/

/-- However the computation ends, it leaves the nodes alone. -/
def SparesNodes {α : Type} (x : Building α) : Prop :=
  ∀ a : Arena, Ends x a (fun _ b => b.nodes = a.nodes) fun _ b => b.nodes = a.nodes

/-- At most one node is stored, and then its handle is returned. -/
def StoresOne (x : Building Nat) : Prop :=
  ∀ a : Arena, Ends x a (fun h b => ∀ g < b.count, g < a.count ∨ g = h)
    fun _ b => b.nodes = a.nodes

namespace SparesNodes

variable {α β : Type}

theorem pure (v : α) : SparesNodes (Pure.pure v : Building α) :=
  fun _ => Ends.pure rfl

theorem throw (e : Error) : SparesNodes (throw e : Building α) :=
  fun _ => Ends.throw rfl

theorem get : SparesNodes (get : Building Arena) :=
  fun _ => Ends.get rfl

theorem ofExcept (x : Except Error α) : SparesNodes (MonadExcept.ofExcept x : Building α) := by
  intro a
  apply Ends.ofExcept
  cases x <;> rfl

theorem bind {x : Building α} {f : α → Building β} (first : SparesNodes x)
    (next : ∀ v, SparesNodes (f v)) : SparesNodes (x >>= f) := by
  intro a
  apply Ends.bind
  apply (first a).weaken
  intro v b same
  apply (next v b).mono
  · exact fun _ _ same' => same'.trans same
  · exact fun _ _ same' => same'.trans same

end SparesNodes

theorem checkNode_spares (h : Nat) : SparesNodes (checkNode h) := fun _ =>
  (checkNode_ends h).mono (fun _ _ known => known.2.2 ▸ rfl) fun _ _ known => known.2 ▸ rfl

theorem checkValue_spares (v : Nat) : SparesNodes (checkValue v) := fun _ =>
  (checkValue_ends v).mono (fun _ _ known => known.2 ▸ rfl) fun _ _ known => known.2 ▸ rfl

theorem intern_spares (v : Value) : SparesNodes (intern v) := by
  intro a
  rw [Ends, intern]
  cases a.valueIndex[v.key]? <;> rfl

theorem divisorCoeff_spares (v : Value) : SparesNodes (divisorCoeff v) := by
  unfold divisorCoeff
  split
  · split
    · exact .pure _
    · split
      · exact .bind .get fun _ => .bind (intern_spares _) fun _ => .pure _
      · exact .throw _
  · exact .pure _

namespace StoresOne

theorem pure (h : Nat) : StoresOne (Pure.pure h : Building Nat) :=
  fun _ => Ends.pure fun _ => Or.inl

theorem throw (e : Error) : StoresOne (throw e) :=
  fun _ => Ends.throw rfl

theorem bind {α : Type} {x : Building α} {f : α → Building Nat} (first : SparesNodes x)
    (next : ∀ v, StoresOne (f v)) : StoresOne (x >>= f) := by
  intro a
  apply Ends.bind
  apply (first a).weaken
  intro v b same
  have count : b.count = a.count := congrArg Array.size same
  apply (next v b).mono
  · exact fun h c one => count ▸ one
  · exact fun _ _ same' => same'.trans same

end StoresOne

theorem internNode_one (node : Node) (info : Info) : StoresOne (internNode node info) := by
  intro a
  refine Ends.intro ?_ ?_
  · intro h b run
    rw [internNode] at run
    split at run
    next =>
      cases run
      exact fun g => Or.inl
    next =>
      split at run
      next =>
        cases run
        intro g hg
        have hg : g < a.nodes.size + 1 := by simpa [count, push] using hg
        exact Nat.lt_succ_iff_lt_or_eq.mp hg
      next => cases run
  · intro e b run
    rw [internNode] at run
    split at run
    next => cases run
    next =>
      split at run <;> cases run
      rfl

/-- Every constructor stores one node at most. -/
theorem construct_one (node : Node) : StoresOne (construct node) := by
  cases node with
  | leaf var =>
    refine .bind .get fun a => ?_
    show StoresOne (if _ then _ else _)
    split
    · exact internNode_one _ _
    · exact .throw _
  | independent => exact .bind .get fun _ => internNode_one _ _
  | constant v => exact .bind (checkValue_spares v) fun _ => .bind .get fun _ => internNode_one _ _
  | slot index var order =>
    refine .bind .get fun a => ?_
    show StoresOne (if _ then _ else _)
    split
    · exact internNode_one _ _
    · exact .throw _
  | unary op c => exact .bind (checkNode_spares c) fun _ => internNode_one _ _
  | derivative c k =>
    show StoresOne (derivative c k)
    unfold derivative
    split
    · exact .throw _
    · exact .bind (checkNode_spares c) fun _ => internNode_one _ _
  | binary op operands =>
    show StoresOne (binary op operands)
    unfold binary
    cases operands with
    | valueTree v t =>
      exact .bind (checkValue_spares v) fun _ => .bind (checkNode_spares t) fun _ =>
        .bind .get fun _ => internNode_one _ _
    | treeTree l r =>
      exact .bind (checkNode_spares l) fun _ => .bind (checkNode_spares r) fun _ =>
        internNode_one _ _
    | treeValue t v =>
      refine .bind (checkValue_spares v) fun _ => .bind (checkNode_spares t) fun i =>
        .bind .get fun a => ?_
      -- the reciprocal that may be interned is a value, and no node
      have finish : ∀ coeff, StoresOne (internNode (.binary op (.treeValue t v)) (i.above coeff)) :=
        fun _ => internNode_one _ _
      dsimp only
      split
      · split
        · exact .bind (.pure _) finish
        · exact .bind (divisorCoeff_spares _) finish
        · exact .bind (.pure _) finish
      · exact .bind (.pure _) finish

/-- A copy of a node is a value that may be interned, and a constructor. -/
theorem rebuild_eq (source : Arena) (copied : Std.HashMap Nat Nat) (node : Node) :
    (∃ node', source.rebuild copied node = construct node') ∨
      ∃ (v : Value) (node' : Nat → Node),
        source.rebuild copied node = intern v >>= fun i => construct (node' i) := by
  cases node with
  | leaf var => exact Or.inl ⟨.leaf var, rfl⟩
  | independent => exact Or.inl ⟨.independent, rfl⟩
  | constant v => exact Or.inr ⟨source.value v, .constant, rfl⟩
  | slot index var order => exact Or.inl ⟨.slot index var order, rfl⟩
  | unary op c => exact Or.inl ⟨.unary op (copied[c]?.getD c), rfl⟩
  | derivative c k => exact Or.inl ⟨.derivative (copied[c]?.getD c) k, rfl⟩
  | binary op operands =>
    cases operands with
    | valueTree v t =>
      exact Or.inr ⟨source.value v, fun i => .binary op (.valueTree i (copied[t]?.getD t)), rfl⟩
    | treeValue t v =>
      exact Or.inr ⟨source.value v, fun i => .binary op (.treeValue (copied[t]?.getD t) i), rfl⟩
    | treeTree l r =>
      exact Or.inl ⟨.binary op (.treeTree (copied[l]?.getD l) (copied[r]?.getD r)), rfl⟩

/-- What an arena holds can be recorded again. -/
structure Renewable (a : Arena) : Prop where
  wellFormed : a.WellFormed
  quotable : ∀ h node, a.node? h = some node → a.NodeQuotable node

theorem renewable_empty (size serial : Nat) : (empty size serial).Renewable where
  wellFormed := wellFormed_empty size serial
  quotable h node hn := by simp [empty, node?] at hn

theorem NodeQuotable.grow (grown : a.Extends b) {node : Node}
    (below : ∀ c ∈ node.children, c < a.count) (values : ∀ v ∈ node.values, v < a.values.size)
    (quotable : a.NodeQuotable node) : b.NodeQuotable node := by
  cases node with
  | binary op operands => exact Quotable.grow grown ⟨below, values⟩ quotable
  | leaf | independent | constant | slot | unary | derivative => trivial

/-- It stays so when one node more is stored that can be recorded again. -/
theorem Renewable.stores (renewable : a.Renewable) {h : Nat} {node : Node}
    (stores : a.Stores node h b) (one : ∀ g < b.count, g < a.count ∨ g = h)
    (quotable : b.NodeQuotable node) : b.Renewable := by
  refine ⟨stores.wellFormed, fun g other hg => ?_⟩
  rcases one g (lt_count hg) with old | rfl
  · rw [stores.grown.node_eq old] at hg
    refine (renewable.quotable g other hg).grow stores.grown (fun c hc => ?_)
      (renewable.wellFormed.values g other hg)
    exact Nat.lt_trans (a.child_lt g other hg c hc) old
  · rw [stores.stored] at hg
    cases hg
    exact quotable

/-- Interning a value keeps what can be recorded again. -/
theorem Renewable.interns (renewable : a.Renewable) {v : Value} {i : Nat}
    (interned : a.Interns v i b) : b.Renewable := by
  refine ⟨interned.wellFormed, fun g other hg => ?_⟩
  rw [node?, interned.nodes] at hg
  refine (renewable.quotable g other hg).grow interned.grown (fun c hc => ?_)
    (renewable.wellFormed.values g other hg)
  exact Nat.lt_trans (a.child_lt g other hg c hc) (lt_count hg)

/-- A constructor that succeeds could do so again. -/
theorem construct_quotable (wf : a.WellFormed) (node : Node) :
    Ends (construct node) a (fun h b => ∃ node', a.Stores node' h b ∧ b.NodeQuotable node')
      fun _ b => b = a := by
  have plain : ∀ {x : Building Nat} {node : Node} {granted refused : Prop},
      Ends x a (fun h b => granted ∧ a.Stores node h b) (fun _ b => refused ∧ b = a) →
      (∀ b : Arena, b.NodeQuotable node) →
      Ends x a (fun h b => ∃ node', a.Stores node' h b ∧ b.NodeQuotable node') fun _ b => b = a :=
    fun ends quotable => ends.mono (fun _ b known => ⟨_, known.2, quotable b⟩) fun _ _ => And.right
  cases node with
  | leaf var => exact plain (leaf_stores wf var) fun _ => trivial
  | independent =>
    exact (independent_stores wf).mono (fun _ _ stores => ⟨_, stores, trivial⟩)
      fun _ _ => False.elim
  | constant v => exact plain (constant_stores wf v) fun _ => trivial
  | slot index var order => exact plain (slot_stores wf index var order) fun _ => trivial
  | unary op c => exact plain (unary_stores wf op c) fun _ => trivial
  | derivative c k => exact plain (derivative_stores wf c k) fun _ => trivial
  | binary op operands =>
    refine Ends.intro ?_ fun _ _ run => ((binary_stores wf op operands).of_error run).2
    intro h b run
    obtain ⟨stored, stores⟩ := (binary_stores wf op operands).of_ok run
    have quotable := ((binary_exact wf op stored).of_ok run).1
    exact ⟨_, stores, quotable.grow stores.grown stored⟩

theorem construct_renews (renewable : a.Renewable) (node : Node) :
    Ends (construct node) a (fun _ b => b.Renewable) fun _ b => b = a := by
  apply ((construct_quotable renewable.wellFormed node).and (construct_one node a)).mono
  · rintro h b ⟨⟨_, stores, quotable⟩, one⟩
    exact renewable.stores stores one quotable
  · exact fun _ _ => And.left

theorem build_renews (renewable : a.Renewable) (request : NodeRequest) :
    Ends (build request) a (fun _ b => b.Renewable) fun _ b => b = a := by
  refine Ends.intro ?_ fun _ _ run => (build_ends renewable.wellFormed request).of_error run
  intro h b run
  obtain ⟨node, -, again⟩ := (build_ends renewable.wellFormed request).of_ok run
  rw [(again a (Extends.refl a)).2] at run
  exact (construct_renews renewable node).of_ok run

theorem rebuild_renews (renewable : a.Renewable) (source : Arena) (copied : Std.HashMap Nat Nat)
    (node : Node) :
    Ends (source.rebuild copied node) a (fun _ b => b.Renewable) fun _ b => b.Renewable := by
  have constructs : ∀ {b : Arena} (node' : Node), b.Renewable →
      Ends (construct node') b (fun _ c => c.Renewable) fun _ c => c.Renewable :=
    fun node' known => (construct_renews known node').mono (fun _ _ => id) fun _ _ same =>
      same ▸ known
  rcases rebuild_eq source copied node with ⟨node', eq⟩ | ⟨v, node', eq⟩
  · rw [eq]
    exact constructs node' renewable
  · rw [eq]
    apply Ends.bind
    apply (intern_interns renewable.wellFormed v).mono
    · exact fun i b interned => constructs (node' i) (renewable.interns interned)
    · exact fun _ _ => False.elim

/-- A copy that fails leaves what it has built, which can be recorded again, too. -/
theorem adopt_renews (renewable : a.Renewable) (source : Arena) {h : Nat}
    (inside : h < source.count) :
    Ends (source.adopt h) a (fun _ b => b.Renewable) fun _ b => b.Renewable := by
  have below : ∀ r ∈ [h], r < source.count := by simpa using inside
  unfold adopt
  refine Ends.bind (Ends.get ?_)
  show Ends (if source.size ≠ a.size then _ else _) _ _ _
  split
  · exact Ends.throw renewable
  · refine Ends.bind ((ends_sweep below (fun _ _ b => b.Renewable) renewable ?_).weaken ?_)
    · intro before g node copied b _ known
      apply Ends.bind
      exact (rebuild_renews known source copied node).weaken fun _ _ renewed => Ends.pure renewed
    · exact fun _ _ renewed => Ends.pure renewed

/-- Calls leave arenas behind that can be recorded again, also when they fail. -/
theorem perform_renews (renewable : a.Renewable) (call : Call) :
    Ends (perform call) a (fun _ b => b.Renewable) fun _ b => b.Renewable := by
  unfold perform
  cases call with
  | value v =>
    apply Ends.map
    apply (intern_interns renewable.wellFormed v).mono
    · exact fun _ _ => renewable.interns
    · exact fun _ _ => False.elim
  | node request =>
    apply Ends.map
    exact (build_renews renewable request).mono (fun _ _ => id) fun _ _ same => same ▸ renewable
  | adopt source h =>
    cases source with
    | none => exact Ends.pure renewable
    | some source =>
      refine Ends.bind (Ends.get ?_)
      show Ends (if source.size ≠ a.size then _ else _) _ _ _
      split
      · exact Ends.throw renewable
      · apply Ends.bind
        apply Ends.ofExcept
        cases known : source.fromEnd h with
        | error e => exact renewable
        | ok k => exact Ends.map (adopt_renews renewable source (lt_count_of_fromEnd known))

theorem Later.renewable (later : a.Later b) (renewable : a.Renewable) : b.Renewable := by
  induction later with
  | refl => exact renewable
  | @call b _ call ih =>
    have ends := perform_renews ih call
    rw [after]
    cases run : perform call b with
    | ok v c => exact ends.of_ok run
    | error e c => exact ends.of_error run

/-- Every arena that calls can reach can be recorded again. -/
theorem Reachable.renewable {size : Int} (reached : Reachable size a) : a.Renewable := by
  obtain ⟨serial, created, run, later⟩ := reached
  rw [create] at run
  split at run
  next => cases run
  next =>
    cases run
    exact later.renewable (renewable_empty _ _)

/-- What can be recorded again is solid. -/
theorem Renewable.solid (renewable : a.Renewable) {h : Nat} (inside : h < a.count) :
    (a.expression h).solid = true := by
  refine node_induction inside ?_
  intro h node hn child
  have quotable := renewable.quotable h node hn
  rw [expression_eq hn]
  cases node with
  | leaf | independent | constant | slot => rfl
  | unary op c => exact child c (by simp [Node.children])
  | derivative c k => exact child c (by simp [Node.children])
  | binary op operands =>
    have below : ∀ t ∈ operands.trees, t < a.count := fun t ht =>
      Nat.lt_trans (a.child_lt h _ hn t ht) (lt_count hn)
    exact (solid_expressionOf ⟨below, renewable.wellFormed.values h _ hn⟩).mpr ⟨quotable, child⟩

/-! ## Copies of what is there -/

/-- An arena that has not got more nodes has the same ones. -/
theorem Extends.nodes_eq (grown : a.Extends b) (none : ∀ g < b.count, g < a.count) :
    b.nodes = a.nodes := by
  refine Array.ext_getElem? fun g => ?_
  show b.node? g = a.node? g
  rcases Nat.lt_or_ge g a.count with inside | outside
  · exact grown.node_eq inside
  · rw [node?_eq_none.mpr outside, node?_eq_none]
    exact Nat.le_of_not_lt fun inside => Nat.not_lt.mpr outside (none g inside)

end Arena

end JetForm
