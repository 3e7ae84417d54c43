import JetForm.Proofs.Tree.Adopt
import JetForm.Proofs.Tree.Quotient
import JetForm.Tree.Request
import Mathlib

/-! # Every arena that calls can reach

    A caller may intern values, ask for nodes and copy trees of other arenas, with
    whatever handles and names.  Some of these calls fail, and a copy may fail
    after it has built a part.  All the same an arena that has been created is
    well formed after any sequence of calls, and it has only grown.

    `Grows` says this of a computation, however it ends, and goes through `bind`
    and through passes over trees.  A request for a node changes nothing if it
    fails, and if it succeeds it gives the same handle ever after. -/

namespace JetForm

/-! ## Calls -/

/-- A call on an arena: intern a value, build a node, or copy a tree of another
    arena, or of the arena itself, with a handle that need not exist. -/
inductive Call where
  | value (v : Value)
  | node (request : NodeRequest)
  | adopt (source : Option Arena) (h : Int)

namespace Arena

/-- A handle of a node; negative ones count from the end. -/
def fromEnd (a : Arena) (h : Int) : Except Error Nat :=
  if 0 ≤ h ∧ h < a.count then .ok h.toNat
  else if -a.count ≤ h ∧ h < 0 then .ok (a.count + h).toNat
  else .error .nodeIndex

/-- Do what is asked for.  An arena need not copy its own trees. -/
def perform : Call → Building Int
  | .value v => Int.ofNat <$> intern v
  | .node request => Int.ofNat <$> build request
  | .adopt none h => pure h
  | .adopt (some source) h => do
    let size := (← get).size
    if source.size ≠ size then throw (.registrySizes size source.size)
    let h ← MonadExcept.ofExcept (source.fromEnd h)
    Int.ofNat <$> source.adopt h

/-- What the arena is after a call, whether it fails or not. -/
def after (a : Arena) (call : Call) : Arena :=
  match perform call a with
  | .ok _ b => b
  | .error _ b => b

/-- Arena `b` is what calls make of arena `a`. -/
inductive Later (a : Arena) : Arena → Prop
  | refl : Later a a
  | call {b : Arena} (before : Later a b) (call : Call) : Later a (b.after call)

/-- An arena for the given number of unknowns that has been created, after any
    calls. -/
def Reachable (size : Int) (a : Arena) : Prop :=
  ∃ serial created, create size serial = .ok created ∧ created.Later a

/-! ## Growing -/

/-- However the computation ends, the arena has grown and is well formed. -/
def Grows {α : Type} (x : Building α) : Prop :=
  ∀ a : Arena, a.WellFormed → Ends x a (fun _ b => b.WellFormed ∧ a.Extends b)
    fun _ b => b.WellFormed ∧ a.Extends b

namespace Grows

variable {α β : Type} {x : Building α}

theorem pure (v : α) : Grows (Pure.pure v : Building α) :=
  fun a wf => Ends.pure ⟨wf, Extends.refl a⟩

theorem throw (e : Error) : Grows (throw e : Building α) :=
  fun a wf => Ends.throw ⟨wf, Extends.refl a⟩

theorem get : Grows (get : Building Arena) :=
  fun a wf => Ends.get ⟨wf, Extends.refl a⟩

theorem ofExcept (x : Except Error α) : Grows (MonadExcept.ofExcept x : Building α) := by
  intro a wf
  apply Ends.ofExcept
  cases x <;> exact ⟨wf, Extends.refl a⟩

theorem bind {f : α → Building β} (first : Grows x) (next : ∀ v, Grows (f v)) :
    Grows (x >>= f) := by
  intro a wf
  apply Ends.bind
  apply (first a wf).weaken
  rintro v b ⟨wf', grown⟩
  apply (next v b wf').mono
  · exact fun _ c known => ⟨known.1, grown.trans known.2⟩
  · exact fun _ c known => ⟨known.1, grown.trans known.2⟩

theorem map (f : α → β) (first : Grows x) : Grows (f <$> x) :=
  bind first fun v => pure (f v)

/-- A constructor stores its node or leaves the arena alone. -/
theorem of_stores {x : Building Nat} {node : Arena → Nat → Arena → Prop}
    {failed : Arena → Error → Arena → Prop}
    (ends : ∀ a : Arena, a.WellFormed → Ends x a (node a) (failed a))
    (stores : ∀ a h b, node a h b → b.WellFormed ∧ a.Extends b)
    (same : ∀ a e b, failed a e b → b = a) : Grows x := by
  intro a wf
  apply (ends a wf).mono
  · exact fun h b known => stores a h b known
  · intro e b known
    cases same a e b known
    exact ⟨wf, Extends.refl a⟩

end Grows

theorem Stores.grows {a b : Arena} {node : Node} {h : Nat} (s : a.Stores node h b) :
    b.WellFormed ∧ a.Extends b :=
  ⟨s.wellFormed, s.grown⟩

theorem intern_grows (v : Value) : Grows (intern v) :=
  .of_stores (fun _ wf => intern_interns wf v) (fun _ _ _ i => ⟨i.wellFormed, i.grown⟩)
    fun _ _ _ => False.elim

theorem leaf_grows (var : Int) : Grows (leaf var) :=
  .of_stores (fun _ wf => leaf_stores wf var) (fun _ _ _ s => s.2.grows) fun _ _ _ h => h.2

theorem independent_grows : Grows independent :=
  .of_stores (fun _ wf => independent_stores wf) (fun _ _ _ s => s.grows) fun _ _ _ => False.elim

theorem constant_grows (v : Nat) : Grows (constant v) :=
  .of_stores (fun _ wf => constant_stores wf v) (fun _ _ _ s => s.2.grows) fun _ _ _ h => h.2

theorem slot_grows (index var order : Int) : Grows (slot index var order) :=
  .of_stores (fun _ wf => slot_stores wf index var order) (fun _ _ _ s => s.2.grows)
    fun _ _ _ h => h.2

theorem unary_grows (op : UnaryOp) (c : Nat) : Grows (unary op c) :=
  .of_stores (fun _ wf => unary_stores wf op c) (fun _ _ _ s => s.2.grows) fun _ _ _ h => h.2

theorem derivative_grows (c k : Nat) : Grows (derivative c k) :=
  .of_stores (fun _ wf => derivative_stores wf c k) (fun _ _ _ s => s.2.grows) fun _ _ _ h => h.2

theorem binary_grows (op : BinaryOp) (operands : Operands) : Grows (binary op operands) :=
  .of_stores (fun _ wf => binary_stores wf op operands) (fun _ _ _ s => s.2.grows)
    fun _ _ _ h => h.2

theorem askNode_grows (h : Int) : Grows (askNode h) :=
  .bind .get fun _ => .ofExcept _

theorem askValue_grows (v : Int) : Grows (askValue v) :=
  .bind .get fun _ => .ofExcept _

theorem askOperands_grows (operands : OperandRequest) : Grows (askOperands operands) := by
  cases operands with
  | valueTree v t =>
    exact .bind (askValue_grows v) fun _ => .bind (askNode_grows t) fun _ => .pure _
  | treeValue t v =>
    exact .bind (askValue_grows v) fun _ => .bind (askNode_grows t) fun _ => .pure _
  | treeTree l r =>
    exact .bind (askNode_grows l) fun _ => .bind (askNode_grows r) fun _ => .pure _

theorem askOrder_grows (order : Number) : Grows (askOrder order) := by
  unfold askOrder
  split
  · split
    · exact .pure _
    · exact .throw _
  · exact .pure _
  · exact .throw _

theorem build_grows (request : NodeRequest) : Grows (build request) := by
  unfold build
  cases request with
  | leaf var => exact leaf_grows var
  | independent => exact independent_grows
  | constant v => exact .bind (askValue_grows v) constant_grows
  | slot index var order => exact slot_grows index var order
  | unary op c =>
    dsimp only
    split
    next op _ => exact .bind (askNode_grows c) (unary_grows op)
    next => exact .throw _
  | binary op operands =>
    dsimp only
    split
    next op operands _ => exact .bind (askOperands_grows operands) (binary_grows op)
    next => exact .throw _
    next => exact .throw _
  | derivative c order =>
    exact .bind (askOrder_grows order) fun k =>
      .bind (askNode_grows c) fun c => derivative_grows c k

/-! ### Copies -/

theorem rebuild_grows (source : Arena) (copied : Std.HashMap Nat Nat) (node : Node) :
    Grows (source.rebuild copied node) := by
  unfold rebuild
  cases node with
  | leaf var => exact leaf_grows var
  | independent => exact independent_grows
  | constant v => exact .bind (intern_grows _) constant_grows
  | slot index var order => exact slot_grows index var order
  | unary op c => exact unary_grows op _
  | derivative c k => exact derivative_grows _ k
  | binary op operands =>
    cases operands with
    | valueTree v t => exact .bind (intern_grows _) fun _ => binary_grows op _
    | treeValue t v => exact .bind (intern_grows _) fun _ => binary_grows op _
    | treeTree l r => exact binary_grows op _

/-- A copy grows node by node, so a copy that fails leaves what it has built. -/
theorem adopt_grows (source : Arena) {h : Nat} (inside : h < source.count) :
    Grows (source.adopt h) := by
  have below : ∀ r ∈ [h], r < source.count := by simpa using inside
  unfold adopt
  apply Grows.bind .get
  intro a
  show Grows (if source.size ≠ a.size then _ else _)
  split
  · exact .throw _
  · refine .bind ?_ fun copied => .pure _
    intro b wf
    refine (ends_sweep below (fun _ _ c => c.WellFormed ∧ b.Extends c) ⟨wf, Extends.refl b⟩ ?_)
    rintro before g node copied c - ⟨wf', grown⟩
    apply (Grows.bind (rebuild_grows source copied node) (fun _ => .pure _) c wf').mono
    · exact fun _ d known => ⟨known.1, grown.trans known.2⟩
    · exact fun _ d known => ⟨known.1, grown.trans known.2⟩

theorem lt_count_of_fromEnd {a : Arena} {h : Int} {k : Nat} (known : a.fromEnd h = .ok k) :
    k < a.count := by
  unfold fromEnd at known
  split at known
  next range =>
    cases known
    omega
  next =>
    split at known
    next range =>
      cases known
      omega
    next => cases known

theorem perform_grows (call : Call) : Grows (perform call) := by
  unfold perform
  cases call with
  | value v => exact .map _ (intern_grows v)
  | node request => exact .map _ (build_grows request)
  | adopt source h =>
    cases source with
    | none => exact .pure h
    | some source =>
      dsimp only
      apply Grows.bind .get
      intro a
      show Grows (if source.size ≠ a.size then _ else _)
      split
      · exact .throw _
      · intro b wf
        apply Ends.bind
        apply Ends.ofExcept
        cases known : source.fromEnd h with
        | error e => exact ⟨wf, Extends.refl b⟩
        | ok k => exact Grows.map _ (adopt_grows source (lt_count_of_fromEnd known)) b wf

/-- One call keeps the arena well formed and only adds to it. -/
theorem after_grows {a : Arena} (wf : a.WellFormed) (call : Call) :
    (a.after call).WellFormed ∧ a.Extends (a.after call) := by
  have ends := perform_grows call a wf
  rw [after]
  cases run : perform call a with
  | ok v b => exact ends.of_ok run
  | error e b => exact ends.of_error run

/-- So do any calls. -/
theorem Later.grows {a b : Arena} (later : a.Later b) (wf : a.WellFormed) :
    b.WellFormed ∧ a.Extends b := by
  induction later with
  | refl => exact ⟨wf, Extends.refl a⟩
  | call _ call ih =>
    obtain ⟨wf', grown⟩ := after_grows ih.1 call
    exact ⟨wf', ih.2.trans grown⟩

/-! ## The same request again -/

variable {a b c : Arena}

theorem askNode_of_lt {h : Nat} (inside : h < a.count) : askNode (h : Int) a = .ok h a := by
  have range : 0 ≤ (h : Int) ∧ (h : Int).toNat < a.nodes.size := ⟨by omega, inside⟩
  rw [askNode, get_bind_eq, nodeHandle, if_pos range]
  rfl

theorem askValue_of_lt {v : Nat} (inside : v < a.values.size) : askValue (v : Int) a = .ok v a := by
  have range : 0 ≤ (v : Int) ∧ (v : Int).toNat < a.values.size := ⟨by omega, inside⟩
  rw [askValue, get_bind_eq, valueHandle, if_pos range]
  rfl

theorem askNode_ends (h : Int) :
    Ends (askNode h) a (fun k b => b = a ∧ k < a.count ∧ h = k) fun _ b => b = a := by
  refine Ends.bind (Ends.get (Ends.ofExcept ?_))
  rw [nodeHandle]
  split
  next range =>
    have inside : h.toNat < a.count := range.2
    exact ⟨rfl, inside, by omega⟩
  next => rfl

theorem askValue_ends (v : Int) :
    Ends (askValue v) a (fun k b => b = a ∧ k < a.values.size ∧ v = k) fun _ b => b = a := by
  refine Ends.bind (Ends.get (Ends.ofExcept ?_))
  rw [valueHandle]
  split
  next range => exact ⟨rfl, range.2, by omega⟩
  next => rfl

/-- The request for stored operands. -/
def requestOf : Operands → OperandRequest
  | .valueTree v t => .valueTree v t
  | .treeValue t v => .treeValue t v
  | .treeTree l r => .treeTree l r

theorem askOperands_of_stored {operands : Operands} (stored : a.OperandsStored operands) :
    askOperands (requestOf operands) a = .ok operands a := by
  obtain ⟨trees, values⟩ := stored
  cases operands with
  | valueTree v t | treeValue t v =>
    rw [requestOf, askOperands, bind_eq (askValue_of_lt (values v (by simp [Operands.values]))),
      bind_eq (askNode_of_lt (trees t (by simp [Operands.trees])))]
    rfl
  | treeTree l r =>
    rw [requestOf, askOperands, bind_eq (askNode_of_lt (trees l (by simp [Operands.trees]))),
      bind_eq (askNode_of_lt (trees r (by simp [Operands.trees])))]
    rfl

theorem askOperands_ends (request : OperandRequest) :
    Ends (askOperands request) a
      (fun operands b => b = a ∧ a.OperandsStored operands ∧ request = requestOf operands)
      fun _ b => b = a := by
  unfold askOperands
  cases request with
  | valueTree v t | treeValue t v =>
    refine Ends.bind ((askValue_ends v).weaken ?_)
    rintro v b ⟨rfl, hv, rfl⟩
    refine Ends.bind ((askNode_ends t).weaken ?_)
    rintro t b ⟨rfl, ht, rfl⟩
    exact Ends.pure ⟨rfl, ⟨by simpa [Operands.trees] using ht, by simpa [Operands.values] using hv⟩,
      rfl⟩
  | treeTree l r =>
    refine Ends.bind ((askNode_ends l).weaken ?_)
    rintro l b ⟨rfl, hl, rfl⟩
    refine Ends.bind ((askNode_ends r).weaken ?_)
    rintro r b ⟨rfl, hr, rfl⟩
    exact Ends.pure ⟨rfl, ⟨by simpa [Operands.trees] using ⟨hl, hr⟩, by simp [Operands.values]⟩, rfl⟩

/-- An order of derivative does not depend on the arena. -/
theorem askOrder_eq (order : Number) :
    (∃ k, 0 < k ∧ ∀ a, askOrder order a = .ok k a) ∨ ∃ e, ∀ a, askOrder order a = .error e a := by
  unfold askOrder
  split
  next k =>
    split
    next positive => exact Or.inl ⟨k.toNat, by omega, fun _ => rfl⟩
    next => exact Or.inr ⟨_, fun _ => rfl⟩
  next => exact Or.inl ⟨1, Nat.one_pos, fun _ => rfl⟩
  next => exact Or.inr ⟨_, fun _ => rfl⟩

/-- The constructor of a node. -/
def construct : Node → Building Nat
  | .leaf var => leaf var
  | .independent => independent
  | .constant v => constant v
  | .slot index var order => slot index var order
  | .unary op c => unary op c
  | .binary op operands => binary op operands
  | .derivative c k => derivative c k

theorem construct_grows (node : Node) : Grows (construct node) := by
  cases node with
  | leaf var => exact leaf_grows var
  | independent => exact independent_grows
  | constant v => exact constant_grows v
  | slot index var order => exact slot_grows index var order
  | unary op c => exact unary_grows op c
  | binary op operands => exact binary_grows op operands
  | derivative c k => exact derivative_grows c k

/-- What makes the constructor of a stored node succeed besides its handles. -/
def NodeQuotable (a : Arena) : Node → Prop
  | .binary op operands => a.Quotable op operands
  | _ => True

/-- The constructor of a stored node finds it, and adds no node. -/
theorem construct_of_stored (wf : a.WellFormed) {node : Node} {h : Nat}
    (stored : a.node? h = some node) (quotable : a.NodeQuotable node) :
    ∃ b, construct node a = .ok h b ∧ b.nodes = a.nodes := by
  have below : ∀ c ∈ node.children, c < a.count :=
    fun c hc => Nat.lt_trans (a.child_lt h node stored c hc) (lt_count stored)
  have values := wf.values h node stored
  have admissible := wf.admissible h node stored
  cases node with
  -- only operations can be refused, so all other nodes are found in the arena as it is
  | leaf var | slot _ var _ =>
    have bound : var < a.size := admissible
    have range : 0 ≤ (var : Int) ∧ (var : Int) < a.size := ⟨by omega, by omega⟩
    refine ⟨a, ?_, rfl⟩
    simp only [construct, leaf, slot, get_bind_eq, if_pos range]
    exact internNode_of_stored wf stored _
  | independent => exact ⟨a, internNode_of_stored wf stored _, rfl⟩
  | constant v =>
    refine ⟨a, ?_, rfl⟩
    rw [construct, constant, bind_eq (checkValue_of_lt (values v (by simp [Node.values]))),
      get_bind_eq]
    exact internNode_of_stored wf stored _
  | unary op c =>
    refine ⟨a, ?_, rfl⟩
    rw [construct, unary, bind_eq (checkNode_of_lt (below c (by simp [Node.children])))]
    exact internNode_of_stored wf stored _
  | derivative c k =>
    refine ⟨a, ?_, rfl⟩
    have positive : 0 < k := admissible
    rw [construct, derivative, if_neg (by omega)]
    refine (bind_eq (checkNode_of_lt (below c (by simp [Node.children])))).trans ?_
    exact internNode_of_stored wf stored _
  | binary op operands =>
    have stored' : a.OperandsStored operands := ⟨below, values⟩
    have ends := binary_exact wf op stored'
    cases run : binary op operands a with
    | ok g b =>
      obtain ⟨rfl, nodes⟩ := (ends.of_ok run).2 h stored
      exact ⟨b, run, nodes⟩
    | error e b => exact absurd quotable (ends.of_error run).1

/-- A request is that for a certain node, now and ever after, or it changes
    nothing. -/
theorem build_ends (wf : a.WellFormed) (request : NodeRequest) :
    Ends (build request) a
      (fun h b => ∃ node, a.Stores node h b ∧
        ∀ c, a.Extends c → c.NodeQuotable node ∧ build request c = construct node c)
      fun _ b => b = a := by
  unfold build
  cases request with
  -- each handle that is asked for is inside now, and stays so as the arena grows
  | leaf var =>
    apply (leaf_stores wf var).mono
    · rintro h b ⟨range, stores⟩
      refine ⟨_, stores, fun c _ => ⟨trivial, ?_⟩⟩
      rw [construct, Int.toNat_of_nonneg range.1]
    · exact fun _ _ failed => failed.2
  | independent =>
    apply (independent_stores wf).mono
    · exact fun h b stores => ⟨_, stores, fun c _ => ⟨trivial, rfl⟩⟩
    · exact fun _ _ => False.elim
  | constant v =>
    refine Ends.bind ((askValue_ends v).weaken ?_)
    rintro v b ⟨rfl, hv, rfl⟩
    apply (constant_stores wf v).mono
    · rintro h c ⟨-, stores⟩
      exact ⟨_, stores, fun d grown => ⟨trivial, bind_eq (askValue_of_lt (grown.value v hv).1)⟩⟩
    · exact fun _ _ failed => failed.2
  | slot index var order =>
    apply (slot_stores wf index var order).mono
    · rintro h b ⟨range, stores⟩
      refine ⟨_, stores, fun c _ => ⟨trivial, ?_⟩⟩
      rw [construct, Int.toNat_of_nonneg range.1]
    · exact fun _ _ failed => failed.2
  | unary name c =>
    dsimp only
    split
    next op known =>
      refine Ends.bind ((askNode_ends c).weaken ?_)
      rintro c b ⟨rfl, hc, rfl⟩
      apply (unary_stores wf op c).mono
      · rintro h d ⟨-, stores⟩
        refine ⟨_, stores, fun e grown => ⟨trivial, ?_⟩⟩
        rw [known]
        exact bind_eq (askNode_of_lt (grown.lt_count hc))
      · exact fun _ _ failed => failed.2
    next => exact Ends.throw rfl
  | binary name operands =>
    dsimp only
    split
    next op operands known =>
      refine Ends.bind ((askOperands_ends operands).weaken ?_)
      rintro operands b ⟨rfl, stored, rfl⟩
      apply ((binary_stores wf op operands).and (binary_exact wf op stored)).mono
      · rintro h c ⟨⟨-, stores⟩, quotable, -⟩
        -- no quotient is refused later that has been granted now
        refine ⟨_, stores, fun d grown => ⟨quotable.grow grown stored, ?_⟩⟩
        have stored' : d.OperandsStored operands :=
          ⟨fun t ht => grown.lt_count (stored.1 t ht), fun v hv => (grown.value v (stored.2 v hv)).1⟩
        rw [known]
        exact bind_eq (askOperands_of_stored stored')
      · exact fun _ _ failed => failed.1.2
    next => exact Ends.throw rfl
    next => exact Ends.throw rfl
  | derivative c order =>
    rcases askOrder_eq order with ⟨k, -, known⟩ | ⟨e, failed⟩
    · refine Ends.bind (Ends.of_run (known a) ?_)
      refine Ends.bind ((askNode_ends c).weaken ?_)
      rintro c b ⟨rfl, hc, rfl⟩
      apply (derivative_stores wf c k).mono
      · rintro h d ⟨-, stores⟩
        refine ⟨_, stores, fun e grown => ⟨trivial, ?_⟩⟩
        dsimp only
        rw [bind_eq (known e), bind_eq (askNode_of_lt (grown.lt_count hc))]
        rfl
      · exact fun _ _ failed => failed.2
    · apply Ends.bind
      rw [Ends, failed a]

/-- The invariant of an arena, as its tables show it: nodes are distinct and the
    index knows them, they refer to what is stored before, and their metadata
    are about the unknowns of the arena. -/
structure Sound (n : Nat) (a : Arena) : Prop where
  size : a.size = n
  distinct : a.nodes.toList.Nodup
  index : ∀ (node : Node) (h : Nat), a.index[node]? = some h ↔ a.nodes[h]? = some node
  children : ∀ (h : Nat) node, a.nodes[h]? = some node → ∀ c ∈ node.children, c < h
  values : ∀ (h : Nat) node, a.nodes[h]? = some node → ∀ v ∈ node.values, v < a.values.size
  infos : a.infos.size = a.nodes.size
  diffOrder : ∀ (h : Nat) info, a.infos[h]? = some info → info.diffOrder.length = n
  mask : ∀ (h : Nat) info, a.infos[h]? = some info → info.mask < 2 ^ n
  coeff : ∀ (h : Nat) info, a.infos[h]? = some info → ∀ v, info.coeff = some v → v < a.values.size

theorem node?_inj (wf : a.WellFormed) {h g : Nat} {node : Node} (hn : a.node? h = some node)
    (gn : a.node? g = some node) : h = g := by
  have known := (wf.index node h).mpr hn
  rw [(wf.index node g).mpr gn] at known
  exact (Option.some.inj known).symm

/-- A mask has a bit for each unknown. -/
theorem mask_lt (wf : a.WellFormed) {h : Nat} (inside : h < a.count) :
    (a.info h).mask < 2 ^ a.size := by
  refine node_induction inside ?_
  intro h node hn child
  have admissible := wf.admissible h node hn
  rw [(info_eq wf hn).2.2]
  cases node with
  | leaf var | slot _ var _ =>
    show 1 <<< var < 2 ^ a.size
    rw [Nat.one_shiftLeft]
    exact Nat.pow_lt_pow_right (by omega) admissible
  | independent | constant => exact Nat.two_pow_pos a.size
  | unary op c => exact child c (by simp [Node.children])
  | derivative c k => exact child c (by simp [Node.children])
  | binary op operands =>
    cases operands with
    | valueTree v t | treeValue t v => exact child t (by simp [Node.children, Operands.trees])
    | treeTree l r =>
      exact Nat.or_lt_two_pow (child l (by simp [Node.children, Operands.trees]))
        (child r (by simp [Node.children, Operands.trees]))

theorem info_of_infos {h : Nat} {info : Info} (known : a.infos[h]? = some info) :
    a.info h = info := by
  rw [Arena.info, known, Option.getD_some]

theorem WellFormed.sound (wf : a.WellFormed) : a.Sound a.size := by
  have stored : ∀ h info, a.infos[h]? = some info → h < a.count := by
    intro h info known
    have inside := (Array.getElem?_eq_some_iff.mp known).1
    rwa [wf.size_infos] at inside
  refine ⟨rfl, ?_, wf.index, a.child_lt, wf.values, wf.size_infos, ?_, ?_, ?_⟩
  · rw [List.nodup_iff_getElem?_ne_getElem?]
    intro i j before inside same
    rw [Array.getElem?_toList, Array.getElem?_toList] at same
    have inside : j < a.nodes.size := inside
    have hj : a.node? j = some a.nodes[j] := Array.getElem?_eq_getElem inside
    have hi : a.node? i = some a.nodes[j] := same.trans hj
    have := node?_inj wf hi hj
    omega
  · intro h info known
    rw [← info_of_infos known, diffOrder_info wf (stored h info known)]
    simp
  · intro h info known
    rw [← info_of_infos known]
    exact mask_lt wf (stored h info known)
  · intro h info known
    rw [← info_of_infos known]
    exact coeff_lt wf (stored h info known)

theorem Reachable.wellFormed {size : Int} (reached : Reachable size a) :
    1 ≤ size ∧ a.WellFormed ∧ a.size = size.toNat := by
  obtain ⟨serial, created, run, later⟩ := reached
  rw [create] at run
  split at run
  next => cases run
  next positive =>
    cases run
    obtain ⟨wf, grown⟩ := later.grows (wellFormed_empty _ _)
    exact ⟨by omega, wf, grown.size⟩

theorem Later.foldl (a : Arena) (calls : List Call) : a.Later (calls.foldl after a) := by
  suffices more : ∀ b, a.Later b → a.Later (calls.foldl after b) from more a .refl
  induction calls with
  | nil => exact fun b later => later
  | cons call calls ih => exact fun b later => ih _ (later.call call)

end Arena

end JetForm
