import JetForm.Proofs.Tree.Invariant
import JetForm.Tree.Copy

/-! # What the constructors do

    Every constructor either stores its node, or finds it stored already, or
    fails and leaves the arena as it was.  `Stores` is what holds after the
    first two: the arena has grown, it is well formed, and the handle that is
    returned is that of the node.  A constructor fails for a handle of no node
    or value, or for a reciprocal that is a fault.

    `Makes` says the same of the expression below the handle.  Passes over trees
    go by it: on stored operands, constructors make the expressions one expects. -/

namespace JetForm

/-- The same node with other children. -/
def Node.mapChildren (f : Nat → Nat) : Node → Node
  | .unary op c => .unary op (f c)
  | .binary op operands => .binary op (operands.mapTrees f)
  | .derivative c order => .derivative (f c) order
  | node => node

theorem Node.children_mapChildren (f : Nat → Nat) (node : Node) :
    (node.mapChildren f).children = node.children.map f := by
  cases node with
  | binary op operands => cases operands <;> rfl
  | leaf | independent | constant | slot | unary | derivative => rfl

theorem Node.values_mapChildren (f : Nat → Nat) (node : Node) :
    (node.mapChildren f).values = node.values := by
  cases node with
  | binary op operands => cases operands <;> rfl
  | leaf | independent | constant | slot | unary | derivative => rfl

namespace Arena

variable {a a' : Arena}

/-- The arena has grown, and handle `h` is that of the node. -/
structure Stores (a : Arena) (node : Node) (h : Nat) (a' : Arena) : Prop where
  wellFormed : a'.WellFormed
  grown : a.Extends a'
  stored : a'.node? h = some node

theorem Stores.inside {node : Node} {h : Nat} (s : a.Stores node h a') : h < a'.count :=
  lt_count s.stored

theorem Stores.after {b : Arena} {node : Node} {h : Nat} (grown : a.Extends b)
    (s : b.Stores node h a') : a.Stores node h a' :=
  ⟨s.wellFormed, grown.trans s.grown, s.stored⟩

/-- The expression of the node that is stored. -/
theorem Stores.expression {node : Node} {h : Nat} (s : a.Stores node h a') (wf : a.WellFormed)
    (below : ∀ c ∈ node.children, c < a.count)
    (values : ∀ v ∈ node.values, v < a.values.size) :
    a'.expression h = a.expressionOf node := by
  rw [expression_eq s.stored]
  have child : ∀ c ∈ node.children, a'.expression c = a.expression c := fun c hc =>
    s.grown.expression wf (below c hc)
  have value : ∀ v ∈ node.values, a'.value v = a.value v := fun v hv =>
    (s.grown.value v (values v hv)).2
  cases node with
  | leaf | independent | slot => rfl
  | constant v => simp only [expressionOf, value v (by simp [Node.values])]
  | unary op c => simp only [expressionOf, child c (by simp [Node.children])]
  | derivative c k => simp only [expressionOf, child c (by simp [Node.children])]
  | binary op operands =>
    cases operands with
    | valueTree v t | treeValue t v =>
      simp only [expressionOf, child t (by simp [Node.children, Operands.trees]),
        value v (by simp [Node.values, Operands.values])]
    | treeTree l r =>
      simp only [expressionOf, child l (by simp [Node.children, Operands.trees]),
        child r (by simp [Node.children, Operands.trees])]

/-- The arena has grown, and handle `h` is that of a value with the same key. -/
structure Interns (a : Arena) (v : Value) (h : Nat) (a' : Arena) : Prop where
  wellFormed : a'.WellFormed
  grown : a.Extends a'
  inside : h < a'.values.size
  key : (a'.value h).key = v.key
  nodes : a'.nodes = a.nodes

/-! ## Values -/

theorem value_eq {v : Nat} {x : Value} (hv : a.values[v]? = some x) : a.value v = x := by
  simp [value, hv]

/-- With a new value the arena stays well formed. -/
theorem interns_push (wf : a.WellFormed) {v : Value} (fresh : a.valueIndex[v.key]? = none) :
    a.Interns v a.values.size { a with
      values := a.values.push v, valueIndex := a.valueIndex.insert v.key a.values.size } := by
  -- no other value has this key, for otherwise the index would know it
  have other : ∀ (h : Nat) (x : Value), a.values[h]? = some x → x.key ≠ v.key := by
    intro h x hx same
    have taken := (wf.valueIndex v.key h).mpr ⟨x, hx, same⟩
    rw [fresh] at taken
    cases taken
  refine ⟨⟨wf.size_infos, wf.index, ?_, ?_, wf.admissible, ?_⟩, ⟨rfl, fun _ _ => id,
    fun _ _ => rfl, ?_⟩, by simp, by simp [value], rfl⟩
  · intro key h
    rw [Std.HashMap.getElem?_insert, Array.getElem?_push]
    by_cases same : v.key = key
    · subst same
      by_cases last : h = a.values.size
      · simp [last]
      · simp only [beq_self_eq_true, if_true, last, if_false, Option.some.injEq]
        constructor
        · intro eq
          exact absurd eq.symm last
        · rintro ⟨x, hx, same⟩
          exact absurd same (other h x hx)
    · simp only [beq_iff_eq, same, if_false, wf.valueIndex]
      by_cases last : h = a.values.size
      · simp [last, same]
      · simp [last]
  · intro h node hn v hv
    have := wf.values h node hn v hv
    rw [Array.size_push]
    omega
  · intro h node hn
    obtain ⟨coeff, eq, inside⟩ := wf.info h node hn
    refine ⟨coeff, eq, fun v hv => ?_⟩
    have := inside v hv
    rw [Array.size_push]
    omega
  · intro u hu
    refine ⟨by rw [Array.size_push]; omega, ?_⟩
    simp [value, Array.getElem?_push_lt hu, Array.getElem?_eq_getElem hu]

theorem intern_interns (wf : a.WellFormed) (v : Value) :
    Ends (intern v) a (fun h a' => a.Interns v h a') fun _ _ => False := by
  refine Ends.intro ?_ ?_
  · intro h a' run
    rw [intern] at run
    split at run
    next h' known =>
      cases run
      obtain ⟨x, hx, key⟩ := (wf.valueIndex v.key h).mp known
      have inside := (Array.getElem?_eq_some_iff.mp hx).1
      exact ⟨wf, Extends.refl a, inside, by rw [value_eq hx, key], rfl⟩
    next fresh =>
      cases run
      exact interns_push wf fresh
  · intro e a' run
    rw [intern] at run
    split at run <;> cases run

/-! ## Nodes -/

/-- The metadata of a node depend on those of its children only. -/
theorem metadata_congr {node : Node} (size : a'.size = a.size)
    (children : ∀ c ∈ node.children, a'.info c = a.info c) :
    a'.metadata node = a.metadata node := by
  cases node with
  | leaf | independent | constant | slot => simp only [metadata, size]
  | unary op c => simp only [metadata, children c (by simp [Node.children])]
  | derivative c k => simp only [metadata, children c (by simp [Node.children])]
  | binary op operands =>
    cases operands with
    | valueTree v t | treeValue t v =>
      simp only [metadata, children t (by simp [Node.children, Operands.trees])]
    | treeTree l r =>
      simp only [metadata, children l (by simp [Node.children, Operands.trees]),
        children r (by simp [Node.children, Operands.trees])]

/-! ### A new node -/

section

variable {node : Node} {info : Info} {below : ∀ c ∈ node.children, c < a.nodes.size}

theorem node?_push (h : Nat) :
    (a.push node info below).node? h = if h = a.count then some node else a.node? h := by
  show (a.nodes.push node)[h]? = if h = a.nodes.size then some node else a.nodes[h]?
  rw [Array.getElem?_push]

theorem info_push_of_lt (wf : a.WellFormed) {h : Nat} (inside : h < a.count) :
    (a.push node info below).info h = a.info h := by
  have inside : h < a.infos.size := wf.size_infos ▸ inside
  simp [Arena.info, push, Array.getElem?_push_lt inside, Array.getElem?_eq_getElem inside]

theorem info_push_self (wf : a.WellFormed) : (a.push node info below).info a.count = info := by
  simp [Arena.info, push, count, ← wf.size_infos]

/-- The metadata of a node whose children are stored do not change. -/
theorem metadata_push (wf : a.WellFormed) {n : Node} (stored : ∀ c ∈ n.children, c < a.count) :
    (a.push node info below).metadata n = a.metadata n :=
  metadata_congr rfl fun c hc => info_push_of_lt wf (stored c hc)

/-- The index finds the new node and all that it found before. -/
theorem index_push (wf : a.WellFormed) (fresh : a.index[node]? = none) (n : Node) (h : Nat) :
    (a.push node info below).index[n]? = some h ↔
      (a.push node info below).node? h = some n := by
  -- the node is nowhere yet, for otherwise the index would know it
  have other : a.node? h ≠ some node := by
    intro hn
    have taken := (wf.index node h).mpr hn
    rw [fresh] at taken
    cases taken
  show (a.index.insert node a.nodes.size)[n]? = some h ↔ _
  rw [node?_push, Std.HashMap.getElem?_insert]
  by_cases same : node = n
  · subst same
    by_cases last : h = a.nodes.size
    · simp [last, count]
    · simp [count, last, other, Ne.symm last]
  · by_cases last : h = a.nodes.size
    · subst last
      simp [same, wf.index, node?, count]
    · simp [same, last, wf.index, count]

/-- What holds of the new node and of all others holds of each node. -/
theorem forall_node_push {P : Nat → Node → Prop} (new : P a.count node)
    (old : ∀ h n, a.node? h = some n → P h n) :
    ∀ h n, (a.push node info below).node? h = some n → P h n := by
  intro h n hn
  rw [node?_push] at hn
  split at hn
  next last =>
    cases hn
    exact last ▸ new
  next => exact old h n hn

end

/-- With a new node the arena stays well formed. -/
theorem stores_push (wf : a.WellFormed) {node : Node} {coeff : Option Nat}
    (below : ∀ c ∈ node.children, c < a.nodes.size)
    (values : ∀ v ∈ node.values, v < a.values.size) (admissible : node.Admissible a.size)
    (inside : ∀ v, coeff = some v → v < a.values.size) (fresh : a.index[node]? = none) :
    a.Stores node a.nodes.size (a.push node { a.metadata node with coeff } below) where
  wellFormed := {
    size_infos := by simp [push, wf.size_infos]
    index := index_push wf fresh
    valueIndex := wf.valueIndex
    values := forall_node_push values wf.values
    admissible := forall_node_push admissible wf.admissible
    info := by
      apply forall_node_push
      · exact ⟨coeff, by rw [info_push_self wf, metadata_push wf below], inside⟩
      · intro h n hn
        obtain ⟨coeff', eq, inside'⟩ := wf.info h n hn
        have hc : ∀ c ∈ n.children, c < a.count := fun c hc =>
          Nat.lt_trans (a.child_lt h n hn c hc) (lt_count hn)
        exact ⟨coeff', by rw [info_push_of_lt wf (lt_count hn), metadata_push wf hc, eq], inside'⟩ }
  grown := {
    size := rfl
    node := fun h n hn => by rw [node?_push, if_neg (Nat.ne_of_lt (lt_count hn)), hn]
    info := fun _ => info_push_of_lt wf
    value := fun _ h => ⟨h, rfl⟩ }
  stored := (node?_push a.count).trans (if_pos rfl)

/-- Interning a node with the metadata that its children give it. -/
theorem internNode_stores (wf : a.WellFormed) (node : Node) (coeff : Option Nat)
    (below : ∀ c ∈ node.children, c < a.count)
    (values : ∀ v ∈ node.values, v < a.values.size) (admissible : node.Admissible a.size)
    (inside : ∀ v, coeff = some v → v < a.values.size) :
    Ends (internNode node { a.metadata node with coeff }) a (fun h a' => a.Stores node h a')
      fun _ _ => False := by
  have below : ∀ c ∈ node.children, c < a.nodes.size := below
  refine Ends.intro ?_ ?_
  · intro h a' run
    rw [internNode] at run
    split at run
    next h' known =>
      cases run
      exact ⟨wf, Extends.refl a, (wf.index node h).mp known⟩
    next fresh =>
      rw [dif_pos below] at run
      cases run
      exact stores_push wf below values admissible inside fresh
  · intro e a' run
    rw [internNode] at run
    split at run
    next => cases run
    next =>
      rw [dif_pos below] at run
      cases run

/-- A recorded coefficient is stored. -/
theorem coeff_lt (wf : a.WellFormed) {h : Nat} (inside : h < a.count) :
    ∀ v, (a.info h).coeff = some v → v < a.values.size := by
  obtain ⟨node, hn⟩ := node?_isSome.mpr inside
  obtain ⟨coeff, eq, bound⟩ := wf.info h node hn
  rw [eq]
  exact bound

/-! ## Constructors -/

theorem checkNode_ends (h : Nat) :
    Ends (checkNode h) a (fun i a' => h < a.count ∧ i = a.info h ∧ a' = a)
      fun _ a' => ¬ h < a.count ∧ a' = a := by
  rw [Ends, checkNode, count]
  split
  next eq =>
    split at eq <;> cases eq
    next inside => exact ⟨inside, rfl, rfl⟩
  next eq =>
    split at eq <;> cases eq
    next outside => exact ⟨outside, rfl⟩

theorem checkValue_ends (v : Nat) :
    Ends (checkValue v) a (fun _ a' => v < a.values.size ∧ a' = a)
      fun _ a' => ¬ v < a.values.size ∧ a' = a := by
  rw [Ends, checkValue]
  split
  next eq =>
    split at eq <;> cases eq
    next inside => exact ⟨inside, rfl⟩
  next eq =>
    split at eq <;> cases eq
    next outside => exact ⟨outside, rfl⟩

theorem leaf_stores (wf : a.WellFormed) (var : Int) :
    Ends (leaf var) a
      (fun h a' => (0 ≤ var ∧ var < a.size) ∧ a.Stores (.leaf var.toNat) h a')
      fun _ a' => ¬ (0 ≤ var ∧ var < a.size) ∧ a' = a := by
  refine Ends.bind (Ends.get ?_)
  by_cases inside : 0 ≤ var ∧ var < a.size
  · rw [if_pos inside]
    have admissible : (Node.leaf var.toNat).Admissible a.size := by
      show var.toNat < a.size
      omega
    refine (internNode_stores wf _ none (by simp [Node.children]) (by simp [Node.values])
      admissible (by simp)).mono ?_ (fun _ _ => False.elim)
    exact fun h a' s => ⟨inside, s⟩
  · rw [if_neg inside]
    exact ⟨inside, rfl⟩

theorem slot_stores (wf : a.WellFormed) (index var order : Int) :
    Ends (slot index var order) a
      (fun h a' => (0 ≤ var ∧ var < a.size) ∧ a.Stores (.slot index var.toNat order) h a')
      fun _ a' => ¬ (0 ≤ var ∧ var < a.size) ∧ a' = a := by
  refine Ends.bind (Ends.get ?_)
  by_cases inside : 0 ≤ var ∧ var < a.size
  · rw [if_pos inside]
    have admissible : (Node.slot index var.toNat order).Admissible a.size := by
      show var.toNat < a.size
      omega
    refine (internNode_stores wf _ none (by simp [Node.children]) (by simp [Node.values])
      admissible (by simp)).mono ?_ (fun _ _ => False.elim)
    exact fun h a' s => ⟨inside, s⟩
  · rw [if_neg inside]
    exact ⟨inside, rfl⟩

theorem independent_stores (wf : a.WellFormed) :
    Ends independent a (fun h a' => a.Stores .independent h a') fun _ _ => False := by
  refine Ends.bind (Ends.get ?_)
  exact internNode_stores wf _ none (by simp [Node.children]) (by simp [Node.values]) trivial
    (by simp)

theorem constant_stores (wf : a.WellFormed) (v : Nat) :
    Ends (constant v) a (fun h a' => v < a.values.size ∧ a.Stores (.constant v) h a')
      fun _ a' => ¬ v < a.values.size ∧ a' = a := by
  refine Ends.bind ((checkValue_ends v).weaken ?_)
  rintro _ _ ⟨inside, rfl⟩
  refine Ends.bind (Ends.get ?_)
  refine (internNode_stores wf (.constant v) none (by simp [Node.children])
    (by simpa [Node.values] using inside) trivial (by simp)).mono ?_ (fun _ _ => False.elim)
  exact fun h a' s => ⟨inside, s⟩

theorem unary_stores (wf : a.WellFormed) (op : UnaryOp) (c : Nat) :
    Ends (unary op c) a (fun h a' => c < a.count ∧ a.Stores (.unary op c) h a')
      fun _ a' => ¬ c < a.count ∧ a' = a := by
  refine Ends.bind ((checkNode_ends c).weaken ?_)
  rintro _ a ⟨inside, rfl, rfl⟩
  refine (internNode_stores wf (.unary op c) (a.info c).coeff
    (by simpa [Node.children] using inside) (by simp [Node.values]) trivial
    (coeff_lt wf inside)).mono ?_ (fun _ _ => False.elim)
  exact fun h a' s => ⟨inside, s⟩

theorem derivative_stores (wf : a.WellFormed) (c k : Nat) :
    Ends (derivative c k) a (fun h a' => (0 < k ∧ c < a.count) ∧ a.Stores (.derivative c k) h a')
      fun _ a' => ¬ (0 < k ∧ c < a.count) ∧ a' = a := by
  by_cases zero : k = 0
  · subst zero
    exact ⟨by simp, rfl⟩
  · rw [derivative, if_neg zero]
    refine Ends.bind ((checkNode_ends c).mono ?_ ?_)
    · rintro _ a ⟨inside, rfl, rfl⟩
      refine (internNode_stores wf (.derivative c k) (a.info c).coeff
        (by simpa [Node.children] using inside) (by simp [Node.values]) (Nat.pos_of_ne_zero zero)
        (coeff_lt wf inside)).mono ?_ (fun _ _ => False.elim)
      exact fun h a' s => ⟨⟨Nat.pos_of_ne_zero zero, inside⟩, s⟩
    · rintro _ _ ⟨outside, rfl⟩
      exact ⟨fun h => outside h.2, rfl⟩

theorem constantOf_stores (wf : a.WellFormed) (v : Value) :
    Ends (constantOf v) a
      (fun h a' => ∃ i, a.Stores (.constant i) h a' ∧ i < a'.values.size ∧
        (a'.value i).key = v.key)
      fun _ _ => False := by
  refine Ends.bind ((intern_interns wf v).weaken ?_)
  intro i b interned
  refine (constant_stores interned.wellFormed i).mono ?_ ?_
  · rintro h a' ⟨inside, s⟩
    obtain ⟨inside', same⟩ := s.grown.value i inside
    exact ⟨i, s.after interned.grown, inside', by rw [same, interned.key]⟩
  · rintro e a' ⟨outside, -⟩
    exact outside interned.inside

/-! ### Binary operations -/

/-- The operands of an operation are stored. -/
def OperandsStored (a : Arena) (operands : Operands) : Prop :=
  (∀ t ∈ operands.trees, t < a.count) ∧ ∀ v ∈ operands.values, v < a.values.size

theorem operandsStored_valueTree {v t : Nat} :
    a.OperandsStored (.valueTree v t) ↔ v < a.values.size ∧ t < a.count := by
  simp [OperandsStored, Operands.trees, Operands.values, and_comm]

theorem operandsStored_treeValue {t v : Nat} :
    a.OperandsStored (.treeValue t v) ↔ t < a.count ∧ v < a.values.size := by
  simp [OperandsStored, Operands.trees, Operands.values]

theorem operandsStored_treeTree {l r : Nat} :
    a.OperandsStored (.treeTree l r) ↔ l < a.count ∧ r < a.count := by
  simp [OperandsStored, Operands.trees, Operands.values]

/-- The operation divides a bare tree by a number whose reciprocal is a fault. -/
def NoReciprocal (a : Arena) (op : BinaryOp) (operands : Operands) : Prop :=
  ∃ t v n f, op = .rdivide ∧ operands = .treeValue t v ∧ a.value v = .number n ∧
    n.reciprocal = .error f

/-- Looking for the reciprocal of a divisor may store it. -/
theorem divisorCoeff_ends (wf : a.WellFormed) (v : Value) :
    Ends (divisorCoeff v) a
      (fun coeff a' => a'.WellFormed ∧ a.Extends a' ∧ ∀ u, coeff = some u → u < a'.values.size)
      fun _ a' => a' = a ∧ ∃ n f, v = .number n ∧ n.reciprocal = .error f := by
  cases v with
  | external f => exact Ends.pure ⟨wf, Extends.refl a, by simp⟩
  | number n =>
    rw [divisorCoeff]
    by_cases zero : n.isZero
    · rw [if_pos zero]
      exact Ends.pure ⟨wf, Extends.refl a, by simp⟩
    · rw [if_neg zero]
      cases inverse : n.reciprocal with
      | error f => exact Ends.throw ⟨rfl, n, f, rfl, inverse⟩
      | ok r =>
        refine Ends.bind (Ends.get (Ends.map ?_))
        refine (intern_interns wf _).mono ?_ (fun _ _ => False.elim)
        intro u a' interned
        refine ⟨interned.wellFormed, interned.grown, fun u' eq => ?_⟩
        cases eq
        exact interned.inside

/-- A value and a tree are checked, one after the other. -/
theorem checked_ends {β : Type} {v t : Nat} {f : Info → Building β} {done : β → Arena → Prop}
    {failed : Error → Arena → Prop}
    (inside : v < a.values.size → t < a.count → Ends (f (a.info t)) a done failed)
    (outside : ∀ e, ¬ (v < a.values.size ∧ t < a.count) → failed e a) :
    Ends (do
      checkValue v
      let i ← checkNode t
      f i) a done failed := by
  apply Ends.bind
  apply (checkValue_ends v).mono
  case error =>
    rintro e _ ⟨missing, rfl⟩
    exact outside e fun stored => missing stored.1
  rintro _ _ ⟨hv, rfl⟩
  apply Ends.bind
  apply (checkNode_ends t).mono
  case error =>
    rintro e _ ⟨missing, rfl⟩
    exact outside e fun stored => missing stored.2
  rintro _ _ ⟨ht, rfl, rfl⟩
  exact inside hv ht

theorem valueTree_stores (wf : a.WellFormed) (op : BinaryOp) (v t : Nat) :
    Ends (binary op (.valueTree v t)) a
      (fun h a' => a.OperandsStored (.valueTree v t) ∧ a.Stores (.binary op (.valueTree v t)) h a')
      fun _ a' => (¬ a.OperandsStored (.valueTree v t) ∨ a.NoReciprocal op (.valueTree v t)) ∧
        a' = a := by
  apply checked_ends
  · intro hv ht
    have stored : a.OperandsStored (.valueTree v t) := operandsStored_valueTree.mpr ⟨hv, ht⟩
    apply Ends.bind
    apply Ends.get
    have inside : ∀ u, (if op = .times && a.isBare t then some v else none) = some u →
        u < a.values.size := by
      intro u eq
      split at eq <;> cases eq
      exact hv
    apply (internNode_stores wf (.binary op (.valueTree v t)) _ stored.1 stored.2 trivial
      inside).mono ?_ fun _ _ => False.elim
    exact fun h a' stores => ⟨stored, stores⟩
  · exact fun e missing => ⟨Or.inl (missing ∘ operandsStored_valueTree.mp), rfl⟩

theorem treeTree_stores (wf : a.WellFormed) (op : BinaryOp) (l r : Nat) :
    Ends (binary op (.treeTree l r)) a
      (fun h a' => a.OperandsStored (.treeTree l r) ∧ a.Stores (.binary op (.treeTree l r)) h a')
      fun _ a' => ¬ a.OperandsStored (.treeTree l r) ∧ a' = a := by
  apply Ends.bind
  apply (checkNode_ends l).mono
  case error =>
    rintro _ _ ⟨missing, rfl⟩
    exact ⟨fun stored => missing (operandsStored_treeTree.mp stored).1, rfl⟩
  rintro _ _ ⟨hl, rfl, rfl⟩
  apply Ends.bind
  apply (checkNode_ends r).mono
  case error =>
    rintro _ _ ⟨missing, rfl⟩
    exact ⟨fun stored => missing (operandsStored_treeTree.mp stored).2, rfl⟩
  rintro _ _ ⟨hr, rfl, rfl⟩
  have stored : OperandsStored _ (.treeTree l r) := operandsStored_treeTree.mpr ⟨hl, hr⟩
  apply (internNode_stores wf (.binary op (.treeTree l r)) none stored.1 stored.2 trivial
    (by simp)).mono ?_ fun _ _ => False.elim
  exact fun h a' stores => ⟨stored, stores⟩

/-- A factor behind a bare tree is recorded, and for a divisor its reciprocal is. -/
theorem recorded_ends (wf : a.WellFormed) {op : BinaryOp} {t v : Nat} (inside : v < a.values.size)
    {f : Option Nat → Building Nat} {done : Nat → Arena → Prop} {failed : Error → Arena → Prop}
    (next : ∀ coeff b, b.WellFormed → a.Extends b → (∀ u, coeff = some u → u < b.values.size) →
      Ends (f coeff) b done failed)
    (refused : ∀ e, a.NoReciprocal op (.treeValue t v) → failed e a) :
    Ends (do
      let coeff ←
        if a.isBare t then
          match op with
          | .times => pure (some v)
          | .rdivide => divisorCoeff (a.value v)
          | _ => pure none
        else pure none
      f coeff) a done failed := by
  have none : Ends (f none) a done failed := next none a wf (Extends.refl a) nofun
  by_cases bare : a.isBare t
  · rw [if_pos bare]
    cases op with
    | plus | minus | power => exact Ends.bind (Ends.pure none)
    | times =>
      refine Ends.bind (Ends.pure (next (some v) a wf (Extends.refl a) ?_))
      rintro _ ⟨⟩
      exact inside
    | rdivide =>
      apply Ends.bind
      apply (divisorCoeff_ends wf (a.value v)).mono
      · rintro coeff b ⟨wf', grown, stored⟩
        exact next coeff b wf' grown stored
      · rintro e _ ⟨rfl, n, f, number, inverse⟩
        exact refused e ⟨t, v, n, f, rfl, rfl, number, inverse⟩
  · rw [if_neg bare]
    exact Ends.bind (Ends.pure none)

theorem treeValue_stores (wf : a.WellFormed) (op : BinaryOp) (t v : Nat) :
    Ends (binary op (.treeValue t v)) a
      (fun h a' => a.OperandsStored (.treeValue t v) ∧ a.Stores (.binary op (.treeValue t v)) h a')
      fun _ a' => (¬ a.OperandsStored (.treeValue t v) ∨ a.NoReciprocal op (.treeValue t v)) ∧
        a' = a := by
  apply checked_ends
  · intro hv ht
    have stored : a.OperandsStored (.treeValue t v) := operandsStored_treeValue.mpr ⟨ht, hv⟩
    apply Ends.bind
    apply Ends.get
    apply recorded_ends wf hv
    · intro coeff b wf' grown inside
      -- the tree is as it was before its divisor was inverted
      have stored' : b.OperandsStored (.treeValue t v) :=
        operandsStored_treeValue.mpr ⟨grown.lt_count ht, (grown.value v hv).1⟩
      rw [← grown.info t ht]
      apply (internNode_stores wf' (.binary op (.treeValue t v)) coeff stored'.1 stored'.2 trivial
        inside).mono ?_ fun _ _ => False.elim
      exact fun h a' stores => ⟨stored, stores.after grown⟩
    · exact fun _ vain => ⟨Or.inr vain, rfl⟩
  · exact fun e missing => ⟨Or.inl fun stored =>
      missing (operandsStored_treeValue.mp stored).symm, rfl⟩

theorem binary_stores (wf : a.WellFormed) (op : BinaryOp) (operands : Operands) :
    Ends (binary op operands) a
      (fun h a' => a.OperandsStored operands ∧ a.Stores (.binary op operands) h a')
      fun _ a' => (¬ a.OperandsStored operands ∨ a.NoReciprocal op operands) ∧ a' = a := by
  cases operands with
  | valueTree v t => exact valueTree_stores wf op v t
  | treeTree l r =>
    apply (treeTree_stores wf op l r).mono
    · exact fun _ _ => id
    · exact fun _ _ failed => ⟨Or.inl failed.1, failed.2⟩
  | treeValue t v => exact treeValue_stores wf op t v

/-! ## Expressions -/

/-- The arena has grown, and handle `h` is that of the expression. -/
structure Makes (a : Arena) (t : Tree) (h : Nat) (a' : Arena) : Prop where
  wellFormed : a'.WellFormed
  grown : a.Extends a'
  inside : h < a'.count
  expression : a'.expression h = t

theorem Makes.after {b : Arena} {t : Tree} {h : Nat} (grown : a.Extends b) (m : b.Makes t h a') :
    a.Makes t h a' :=
  ⟨m.wellFormed, grown.trans m.grown, m.inside, m.expression⟩

/-- What is stored already. -/
theorem makes_stored (wf : a.WellFormed) {h : Nat} (inside : h < a.count) :
    a.Makes (a.expression h) h a :=
  ⟨wf, Extends.refl a, inside, rfl⟩

theorem Stores.makes {node : Node} {h : Nat} (s : a.Stores node h a') (wf : a.WellFormed)
    (below : ∀ c ∈ node.children, c < a.count)
    (values : ∀ v ∈ node.values, v < a.values.size) : a.Makes (a.expressionOf node) h a' :=
  ⟨s.wellFormed, s.grown, s.inside, s.expression wf below values⟩

theorem leaf_makes (wf : a.WellFormed) {var : Nat} (inside : var < a.size) :
    Ends (leaf var) a (fun h a' => a.Makes (.leaf var) h a') fun _ _ => False := by
  refine (leaf_stores wf var).mono ?_ ?_
  · rintro h a' ⟨-, s⟩
    exact s.makes wf (by simp [Node.children]) (by simp [Node.values])
  · rintro e a' ⟨outside, -⟩
    exact outside (by omega)

theorem slot_makes (wf : a.WellFormed) (index : Int) {var : Nat} (order : Int)
    (inside : var < a.size) :
    Ends (slot index var order) a (fun h a' => a.Makes (.slot index var order) h a')
      fun _ _ => False := by
  refine (slot_stores wf index var order).mono ?_ ?_
  · rintro h a' ⟨-, s⟩
    exact s.makes wf (by simp [Node.children]) (by simp [Node.values])
  · rintro e a' ⟨outside, -⟩
    exact outside (by omega)

theorem independent_makes (wf : a.WellFormed) :
    Ends independent a (fun h a' => a.Makes .independent h a') fun _ _ => False :=
  (independent_stores wf).weaken fun _ _ s =>
    s.makes wf (by simp [Node.children]) (by simp [Node.values])

theorem constant_makes (wf : a.WellFormed) {v : Nat} (inside : v < a.values.size) :
    Ends (constant v) a (fun h a' => a.Makes (.constant (a.value v).key) h a')
      fun _ _ => False := by
  refine (constant_stores wf v).mono ?_ ?_
  · rintro h a' ⟨-, s⟩
    exact s.makes wf (by simp [Node.children]) (by simpa [Node.values] using inside)
  · rintro e a' ⟨outside, -⟩
    exact outside inside

theorem constantOf_makes (wf : a.WellFormed) (v : Value) :
    Ends (constantOf v) a (fun h a' => a.Makes (.constant v.key) h a') fun _ _ => False := by
  refine (constantOf_stores wf v).weaken ?_
  rintro h a' ⟨i, s, -, key⟩
  refine ⟨s.wellFormed, s.grown, s.inside, ?_⟩
  rw [expression_eq s.stored, expressionOf, key]

theorem unary_makes (wf : a.WellFormed) (op : UnaryOp) {c : Nat} (inside : c < a.count) :
    Ends (unary op c) a (fun h a' => a.Makes (.unary op (a.expression c)) h a')
      fun _ _ => False := by
  refine (unary_stores wf op c).mono ?_ ?_
  · rintro h a' ⟨-, s⟩
    exact s.makes wf (by simpa [Node.children] using inside) (by simp [Node.values])
  · rintro e a' ⟨outside, -⟩
    exact outside inside

theorem derivative_makes (wf : a.WellFormed) {c k : Nat} (positive : 0 < k)
    (inside : c < a.count) :
    Ends (derivative c k) a (fun h a' => a.Makes (.derivative (a.expression c) k) h a')
      fun _ _ => False := by
  refine (derivative_stores wf c k).mono ?_ ?_
  · rintro h a' ⟨-, s⟩
    exact s.makes wf (by simpa [Node.children] using inside) (by simp [Node.values])
  · rintro e a' ⟨outside, -⟩
    exact outside ⟨positive, inside⟩

theorem treeTree_makes (wf : a.WellFormed) (op : BinaryOp) {l r : Nat} (hl : l < a.count)
    (hr : r < a.count) :
    Ends (binary op (.treeTree l r)) a
      (fun h a' => a.Makes (.treeTree op (a.expression l) (a.expression r)) h a')
      fun _ _ => False := by
  have stored : a.OperandsStored (.treeTree l r) :=
    ⟨by simpa [Operands.trees] using ⟨hl, hr⟩, by simp [Operands.values]⟩
  refine (binary_stores wf op _).mono ?_ ?_
  · rintro h a' ⟨-, s⟩
    exact s.makes wf stored.1 stored.2
  · rintro e a' ⟨outside | ⟨t, v, n, f, -, eq, -⟩, -⟩
    · exact outside stored
    · cases eq

theorem valueTree_makes (wf : a.WellFormed) (op : BinaryOp) {v t : Nat} (hv : v < a.values.size)
    (ht : t < a.count) :
    Ends (binary op (.valueTree v t)) a
      (fun h a' => a.Makes (.valueTree op (a.value v).key (a.expression t)) h a')
      fun _ _ => False := by
  have stored : a.OperandsStored (.valueTree v t) :=
    ⟨by simpa [Operands.trees] using ht, by simpa [Operands.values] using hv⟩
  refine (binary_stores wf op _).mono ?_ ?_
  · rintro h a' ⟨-, s⟩
    exact s.makes wf stored.1 stored.2
  · rintro e a' ⟨outside | ⟨t, v, n, f, -, eq, -⟩, -⟩
    · exact outside stored
    · cases eq

theorem treeValue_makes (wf : a.WellFormed) (op : BinaryOp) {t v : Nat} (ht : t < a.count)
    (hv : v < a.values.size) :
    Ends (binary op (.treeValue t v)) a
      (fun h a' => a.Makes (.treeValue op (a.expression t) (a.value v).key) h a')
      fun _ _ => op = .rdivide := by
  have stored : a.OperandsStored (.treeValue t v) :=
    ⟨by simpa [Operands.trees] using ht, by simpa [Operands.values] using hv⟩
  refine (binary_stores wf op _).mono ?_ ?_
  · rintro h a' ⟨-, s⟩
    exact s.makes wf stored.1 stored.2
  · rintro e a' ⟨outside | ⟨t, v, n, f, quotient, -⟩, -⟩
    · exact absurd stored outside
    · exact quotient

/-- Recording a node again on other children. -/
theorem copyNode_makes (wf : a.WellFormed) {child : Nat → Nat} {h : Nat} {node : Node}
    (hn : a.node? h = some node) (below : ∀ c ∈ node.children, child c < a.count) :
    Ends (copyNode child h node) a
      (fun r a' => a.Makes (a.expressionOf (node.mapChildren child)) r a')
      fun _ _ => ∃ t v, node = .binary .rdivide (.treeValue t v) := by
  have values := wf.values h node hn
  have kept : a.Makes (a.expressionOf node) h a :=
    expression_eq hn ▸ makes_stored wf (lt_count hn)
  -- nodes without children are kept, and only a quotient by a value can be refused
  cases node with
  | leaf | independent | constant | slot => exact Ends.pure kept
  | unary op c =>
    exact (unary_makes wf op (below c (by simp [Node.children]))).mono (fun _ _ => id)
      fun _ _ => False.elim
  | derivative c k =>
    exact (derivative_makes wf (wf.admissible h _ hn) (below c (by simp [Node.children]))).mono
      (fun _ _ => id) fun _ _ => False.elim
  | binary op operands =>
    cases operands with
    | valueTree v t =>
      exact (valueTree_makes wf op (values v (by simp [Node.values, Operands.values]))
        (below t (by simp [Node.children, Operands.trees]))).mono (fun _ _ => id)
        fun _ _ => False.elim
    | treeValue t v =>
      refine (treeValue_makes wf op (below t (by simp [Node.children, Operands.trees]))
        (values v (by simp [Node.values, Operands.values]))).mono (fun _ _ => id) ?_
      rintro _ _ rfl
      exact ⟨t, v, rfl⟩
    | treeTree l r =>
      exact (treeTree_makes wf op (below l (by simp [Node.children, Operands.trees]))
        (below r (by simp [Node.children, Operands.trees]))).mono (fun _ _ => id)
        fun _ _ => False.elim

end Arena

end JetForm
