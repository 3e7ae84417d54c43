import JetForm.Proofs.Reduction.Reordering
import JetForm.Proofs.Reduction.ValueConditions

/-! # One layout for the whole reduction

    The entries of the state are numbered four times.  Slots are handed out by a
    counter, the offsets of the unknowns are sums of orders, the equations are
    appended unknown after unknown, and numbers given as conditions are taken in
    the order of the slots.

    The numbers agree: the place of a derivative is the offset of its unknown
    plus the order of the derivative.  No two derivatives share a place, and no
    place below the size of the state is left free. -/

namespace JetForm

/-! ## The counter -/

namespace SlotTable

variable {t : SlotTable} {keys : List (Int × Int)}

/-- Hand out slots for some keys, one after the other. -/
def allocateAll (t : SlotTable) (keys : List (Int × Int)) : Except Error SlotTable :=
  keys.foldlM (fun t key => Prod.snd <$> t.allocate key.1 key.2) t

/-- Keys that are free and distinct are put behind those that have been allocated. -/
theorem allocateAll_eq (nodup : (t.keys ++ keys).Nodup) :
    t.allocateAll keys = .ok ⟨t.keys ++ keys, nodup⟩ := by
  induction keys generalizing t with
  | nil =>
    obtain ⟨held, distinct⟩ := t
    simp only [List.append_nil]
    rfl
  | cons key keys ih =>
    have free : key ∉ t.keys := fun taken =>
      (List.nodup_append.mp nodup).2.2 key taken key List.mem_cons_self rfl
    have next : (t.keys ++ [key] ++ keys).Nodup := by
      rwa [List.append_assoc]
    have first : Prod.snd <$> t.allocate key.1 key.2 =
        .ok ⟨t.keys ++ [key], (List.nodup_append.mp next).1⟩ := by
      rw [allocate, dif_neg free]
      rfl
    rw [allocateAll, List.foldlM_cons, first]
    refine (ih next).trans ?_
    simp only [List.append_assoc]
    rfl

/-- A key comes no later than another one if its slot does. -/
def Precedes (t : SlotTable) (k l : Int × Int) : Prop :=
  ∀ s s', t.slot? k.1 k.2 = some s → t.slot? l.1 l.2 = some s' → s ≤ s'

/-- If the keys are sorted by their slots, they are in the order of allocation. -/
theorem eq_keys_of_sorted (perm : keys.Perm t.keys) (sorted : keys.Pairwise t.Precedes) :
    keys = t.keys := by
  have slot : ∀ s (h : s < t.keys.length), t.slot? t.keys[s].1 t.keys[s].2 = some s :=
    fun s h => slot?_eq_some_iff.mpr (List.getElem?_eq_getElem h)
  have allocated : t.keys.Pairwise t.Precedes := by
    rw [List.pairwise_iff_getElem]
    intro i j hi hj before s s' hs hs'
    rw [slot i hi] at hs
    rw [slot j hj] at hs'
    cases hs
    cases hs'
    exact before.le
  refine perm.eq_of_pairwise ?_ sorted allocated
  -- two keys of which neither comes later have one slot
  rintro k l hk hl le ge
  obtain ⟨i, hi, rfl⟩ := List.getElem_of_mem (perm.subset hk)
  obtain ⟨j, hj, rfl⟩ := List.getElem_of_mem hl
  obtain rfl : i = j :=
    (le i j (slot i hi) (slot j hj)).antisymm (ge j i (slot j hj) (slot i hi))
  rfl

end SlotTable

namespace Registry

variable {r : Registry}

/-- Hand out slots for the derivatives below the order of each unknown. -/
def allocateSlots (r : Registry) : Except Error SlotTable :=
  r.orders.zipIdx.foldlM (fun t (entry : Int × Nat) =>
    (List.range entry.1.toNat).foldlM (fun t (order : Nat) =>
      Prod.snd <$> t.allocate entry.2 order) t) .empty

/-- None of them is allocated twice, and the slots are those of the registry. -/
theorem allocateSlots_eq : r.allocateSlots = .ok r.slots := by
  -- from unknown `v` on, after the slots of all unknowns before
  have later : ∀ (orders : List Int) (v : Nat) (t : SlotTable)
      (nodup : (t.keys ++ keysFrom v orders).Nodup),
      (orders.zipIdx v).foldlM (fun t (entry : Int × Nat) =>
        (List.range entry.1.toNat).foldlM (fun t (order : Nat) =>
          Prod.snd <$> t.allocate entry.2 order) t) t =
        .ok (⟨t.keys ++ keysFrom v orders, nodup⟩ : SlotTable) := by
    intro orders
    induction orders with
    | nil =>
      rintro v ⟨held, distinct⟩ nodup
      simp only [keysFrom, List.append_nil]
      rfl
    | cons n orders ih =>
      intro v t nodup
      have next : (t.keys ++ keysOf v n ++ keysFrom (v + 1) orders).Nodup := by
        rwa [List.append_assoc]
      have first : (List.range n.toNat).foldlM (fun t (order : Nat) =>
          Prod.snd <$> t.allocate v order) t =
            .ok ⟨t.keys ++ keysOf v n, (List.nodup_append.mp next).1⟩ := by
        rw [← SlotTable.allocateAll_eq, SlotTable.allocateAll, keysOf, List.foldlM_map]
      rw [List.zipIdx_cons, List.foldlM_cons, first]
      refine (ih (v + 1) _ next).trans ?_
      simp only [keysFrom, List.append_assoc]
  exact later r.orders 0 .empty (nodup_keysFrom 0 r.orders)

/-! ## Places -/

theorem length_slots : r.slots.size = (r.orders.map Int.toNat).sum := by
  rw [SlotTable.size, keys_slots_eq, List.length_flatten, blocks_keys]

/-- There are as many slots as the orders sum up to. -/
theorem size_slots (nonneg : ∀ n ∈ r.orders, 0 ≤ n) : (r.slots.size : Int) = r.stateSize := by
  have sum : ∀ (orders : List Int) (total : Int), (∀ n ∈ orders, 0 ≤ n) →
      orders.foldl (· + ·) total = total + ((orders.map Int.toNat).sum : Nat) := by
    intro orders
    induction orders with
    | nil => simp
    | cons n orders ih =>
      intro total nonneg
      have first := nonneg n List.mem_cons_self
      rw [List.foldl_cons, ih _ fun m hm => nonneg m (List.mem_cons_of_mem n hm), List.map_cons,
        List.sum_cons]
      omega
  rw [stateSize, sum r.orders 0 nonneg, length_slots, Int.zero_add]

/-- The place of derivative `j` of unknown `i` is the offset of the unknown plus `j`. -/
def IsPlace (r : Registry) (i j : Int) (s : Nat) : Prop :=
  ∃ (var order : Nat) (n first : Int), i = var ∧ j = order ∧ r.orders[var]? = some n ∧
    (order : Int) < n ∧ r.offsets[var]? = some first ∧ (s : Int) = first + order

theorem slot?_iff_isPlace (nonneg : ∀ n ∈ r.orders, 0 ≤ n) {i j : Int} {s : Nat} :
    r.slots.slot? i j = some s ↔ r.IsPlace i j s := by
  constructor
  · intro slot
    have stored := SlotTable.slot?_eq_some_iff.mp slot
    obtain ⟨var, n, order, known, below, rfl⟩ :=
      exists_of_lt_slots (r := r) (List.getElem?_eq_some_iff.mp stored).1
    rw [keys_slots known below] at stored
    obtain ⟨rfl, rfl⟩ := Prod.mk.inj (Option.some.inj stored)
    exact ⟨var, order, n, _, rfl, rfl, known, by omega,
      offsets_eq nonneg (List.getElem?_eq_some_iff.mp known).1, by omega⟩
  · rintro ⟨var, order, n, first, rfl, rfl, known, below, offset, place⟩
    rw [offsets_eq nonneg (List.getElem?_eq_some_iff.mp known).1] at offset
    obtain rfl := Option.some.inj offset
    rw [slot?_eq known (by omega)]
    congr 1
    omega

/-- The places of the derivatives are the numbers below the size of the state. -/
theorem lt_stateSize_iff (nonneg : ∀ n ∈ r.orders, 0 ≤ n) {s : Nat} :
    (s : Int) < r.stateSize ↔ ∃! key : Int × Int, r.slots.slot? key.1 key.2 = some s := by
  rw [← size_slots nonneg, Int.ofNat_lt]
  simp only [SlotTable.slot?_eq_some_iff]
  constructor
  · intro inside
    exact ⟨r.slots.keys[s], List.getElem?_eq_getElem inside, fun key stored =>
      Option.some.inj (stored.symm.trans (List.getElem?_eq_getElem inside))⟩
  · rintro ⟨key, stored, -⟩
    exact (List.getElem?_eq_some_iff.mp stored).1

end Registry

/-! ## Equations -/

/-- The node of a state entry. -/
theorem Arena.node?_of_slot {a : Arena} {h var : Nat} {index order : Int} (inside : h < a.count)
    (expression : a.expression h = .slot index var order) :
    a.node? h = some (.slot index var order) := by
  obtain ⟨node, hn⟩ := node?_isSome.mpr inside
  rw [expression_eq hn] at expression
  cases node with
  | slot index var order =>
    cases expression
    exact hn
  | binary op operands => cases operands <;> cases expression
  | leaf | derivative | independent | unary | constant => cases expression

namespace SplitSystem.Assembled

variable {s : SplitSystem} {r : Registry} {b : Arena}

/-- The equations have the layout of the slots. -/
theorem exists_blocks (assembled : s.Assembled r b) :
    ∃ ls : List (List Nat), s.equations = ls.flatten ∧ r.Blocks ls ∧
      ∀ (var : Nat) (n : Int), r.orders[var]? = some n →
        ∃ hs, ls[var]? = some hs ∧ Split.Chained r var n.toNat hs b := by
  obtain ⟨-, parts, equations, chained⟩ := assembled
  refine ⟨parts.map Prod.fst, equations, Registry.blocks_of_forall₂ ?_, ?_⟩
  · exact chained.imp fun _ _ known => known.1
  · intro var n known
    have listed : r.orders.zipIdx[var]? = some (n, var) := by
      simp [known]
    obtain ⟨part, found, block⟩ := exists_of_forall₂_left chained listed
    exact ⟨part.1, by rw [List.getElem?_map, found]; rfl, block⟩

end SplitSystem.Assembled

/-- There is an equation for each slot, and the derivative of an entry that is not the last one of
    its unknown is the node of the entry that follows. -/
structure SplitSystem.LaidOut (s : SplitSystem) (r : Registry) (b : Arena) : Prop where
  slots : s.slots = r.slots
  length : (s.equations.length : Int) = r.stateSize
  lower : ∀ (var : Nat) (n : Int), r.orders[var]? = some n →
    ∀ order : Nat, (order : Int) + 1 < n → ∃ k k' h, r.slots.slot? var order = some k ∧
      r.slots.slot? var (order + 1) = some k' ∧ s.equations[k]? = some h ∧
      b.node? h = some (.slot k' var (order + 1))

theorem SplitSystem.Assembled.laidOut {s : SplitSystem} {r : Registry} {b : Arena}
    (assembled : s.Assembled r b) (positive : ∀ n ∈ r.orders, 1 ≤ n) : s.LaidOut r b := by
  obtain ⟨ls, equations, blocks, chained⟩ := assembled.exists_blocks
  refine ⟨assembled.slots, ?_, ?_⟩
  · have nonneg : ∀ n ∈ r.orders, 0 ≤ n := fun n hn => Int.le_trans (by decide) (positive n hn)
    rw [equations, blocks.length_flatten, Registry.size_slots nonneg]
  · intro var n known order below
    obtain ⟨hs, block, chain⟩ := chained var n known
    obtain ⟨h, listed, inside, expression⟩ := chain.2 order (by omega)
    refine ⟨_, _, h, Registry.slot?_eq known (by omega),
      Registry.slot?_eq (k := order + 1) known (by omega), ?_,
      Arena.node?_of_slot inside expression⟩
    rw [equations, blocks.getElem? block (List.getElem?_eq_some_iff.mp listed).1, listed]

theorem Arena.split_assembled {a b : Arena} (wf : a.WellFormed) {roots : List Nat} {r : Registry}
    {rhs : Option (List RightHandSide)} (stored : ∀ side ∈ rhs.getD [], side.Stored a)
    {domain : Domain Float} {options : ReductionOptions} {s : SplitSystem}
    (run : Arena.split roots r domain rhs options a = .ok s b) : s.Assembled r b := by
  cases rhs with
  | some rhs => exact ((split_settled wf stored domain options).of_ok run).2
  | none =>
    rw [split_none] at run
    refine ((split_settled wf ?_ domain options).of_ok run).2
    intro side listed
    obtain ⟨root, -, rfl⟩ := List.mem_map.mp listed
    trivial

/-! ## The layout -/

namespace Registry

variable {r : Registry}

/-- **The layout of the state.**  Allocation gives derivative `j` of each unknown the offset of the
    unknown plus `j`, and no other key a slot; the slots are the numbers below the size of the
    state, one for each key.  If equations can be split, there are as many of them as slots, and
    the derivative of an entry that is not the last one of its unknown is the node of the next
    entry.  Numbers given as conditions, one for each slot, become conditions for the entries in
    the order of the slots, in which the keys are listed already. -/
theorem slots_layout (positive : ∀ n ∈ r.orders, 1 ≤ n) :
    r.allocateSlots = .ok r.slots ∧
    (∀ (i j : Int) (s : Nat), r.slots.slot? i j = some s ↔ r.IsPlace i j s) ∧
    (∀ s : Nat, (s : Int) < r.stateSize ↔
      ∃! key : Int × Int, r.slots.slot? key.1 key.2 = some s) ∧
    (∀ (a b : Arena) (roots : List Nat) (domain : Domain Float)
      (rhs : Option (List RightHandSide)) (options : ReductionOptions) (s : SplitSystem),
      a.WellFormed → (∀ side ∈ rhs.getD [], side.Stored a) →
      Arena.split roots r domain rhs options a = .ok s b → s.LaidOut r b) ∧
    (∀ (w : Workspace) (p : TracedProblem) (given : Domain Float) (ns : List Number),
      w.WellFormed → p.HasLeaves given w → r.size = p.names.length →
      (∀ n ∈ ns, n.isReal = true) → (ns.length : Int) = r.stateSize →
      ∃ es w', FirstOrder.conditionTrees p r.slots (.values (ns.map .number)) w = .ok es w' ∧
        es.length = ns.length ∧
        ∀ var order s : Nat, r.slots.slot? var order = some s → ∃ e n, es[s]? = some e ∧
          ns[s]? = some n ∧ e.Is (.valueCondition var order n) given w') ∧
    ∀ keys : List (Int × Int), keys.Perm r.slots.keys → keys.Pairwise r.slots.Precedes →
      keys = r.slots.keys := by
  have nonneg : ∀ n ∈ r.orders, 0 ≤ n := fun n hn => Int.le_trans (by decide) (positive n hn)
  refine ⟨allocateSlots_eq, fun i j s => slot?_iff_isPlace nonneg,
    fun s => lt_stateSize_iff nonneg, ?_, ?_, fun keys => SlotTable.eq_keys_of_sorted⟩
  · intro a b roots domain rhs options s wf stored run
    exact (Arena.split_assembled wf stored run).laidOut positive
  · intro w p given ns wf leaves size real length
    have length : ns.length = r.slots.size := by
      rw [← size_slots nonneg] at length
      exact_mod_cast length
    -- one condition for each slot, posed in the order of the slots
    obtain ⟨es, w', run, -, poses⟩ :=
      (FirstOrder.conditionTrees_values wf leaves size real length).exists_ok
    refine ⟨es, w', run, ?_, fun var order s slot => ?_⟩
    · rw [← poses.length_eq, List.length_zip, ← SlotTable.size, ← length, Nat.min_self]
    · obtain ⟨e, n, found, number, is, -⟩ := FirstOrder.exists_pose length poses slot
      exact ⟨e, n, found, number, is⟩

end Registry

/-! ### One unknown of second order -/

/-- The equation `u'' = 0`. -/
def Arena.bent : Building (List Nat) := do
  let u ← leaf 0
  let d ← derivative u 2
  return [d]

/-- The equation is stored at the given places. -/
structure Arena.IsBent (roots : List Nat) (a : Arena) : Prop where
  wellFormed : a.WellFormed
  size : a.size = 1
  expressions : roots.map a.expression = [.derivative (.leaf 0) 2]

theorem Arena.bent_isBent : Ends bent (.empty 1) IsBent fun _ _ => False := by
  refine Ends.bind ((leaf_makes (wellFormed_empty 1 0) (by decide)).weaken ?_)
  intro u a₁ unknown
  refine Ends.bind ((derivative_makes unknown.wellFormed (by decide) unknown.inside).weaken ?_)
  intro d a₂ rate
  rw [unknown.expression] at rate
  refine Ends.pure ⟨rate.wellFormed, (unknown.grown.trans rate.grown).size, ?_⟩
  simp [rate.expression]

theorem Arena.split_bent {a : Arena} (is : IsBent [1] a)
    (assigned : a.assignEquations [1] Conditions.curved = .ok [0]) (d : Domain Float) :
    ∃ s b, Arena.split [1] Conditions.curved d none {} a = .ok s b := by
  refine split_jets (r := Conditions.curved) is.wellFormed assigned ?_ ?_ d
  · intro root hr
    obtain rfl := List.mem_singleton.mp hr
    exact ⟨0, 2, by simpa using is.expressions⟩
  · rw [is.expressions]
    intro entry listed
    obtain rfl : entry = (2, 0) := by simpa [Conditions.curved] using listed
    exact ⟨0, rfl, rfl⟩

/-- The state of `u'' = 0` has the entries `u` and `u'`.  The first one has the second as its
    derivative, and the second of two numbers is the condition for it. -/
theorem Registry.slots_layout_bent : (∀ n ∈ Conditions.curved.orders, 1 ≤ n) ∧
    ∃ a, Arena.bent (.empty 1) = .ok [1] a ∧ ∀ d : Domain Float,
      (∃ s b h, Arena.split [1] Conditions.curved d none {} a = .ok s b ∧
        s.equations.length = 2 ∧ s.equations[0]? = some h ∧ b.node? h = some (.slot 1 0 1)) ∧
      ∃ p w es w' e, FirstOrder.conditionTrees p Conditions.curved.slots
          (.values [.number (.int 3), .number (.int 4)]) w = .ok es w' ∧
        es[1]? = some e ∧ e.Is (.valueCondition 0 1 (.int 4)) d w' := by
  have positive : ∀ n ∈ Conditions.curved.orders, 1 ≤ n := by decide
  have built : Ends Arena.bent (.empty 1) (fun hs a => hs = [1] ∧
      a.assignEquations hs Conditions.curved = .ok [0]) fun _ _ => False := by
    cbv
  obtain ⟨_, a, run, is, rfl, assigned⟩ := (Arena.bent_isBent.and built).mono
    (fun _ _ => id) (fun _ _ => And.left) |>.exists_ok
  obtain ⟨-, -, -, equations, conditions, -⟩ := slots_layout positive
  refine ⟨positive, a, run, fun d => ⟨?_, ?_⟩⟩
  · obtain ⟨s, b, split⟩ := Arena.split_bent is assigned d
    obtain ⟨-, length, lower⟩ := equations a b [1] d none {} s is.wellFormed (by simp) split
    obtain ⟨k, k', h, first, second, listed, node⟩ := lower 0 2 rfl 0 (by decide)
    obtain rfl : 0 = k := Option.some.inj first
    obtain rfl : 1 = k' := Option.some.inj second
    exact ⟨s, b, h, split, Int.ofNat.inj length, listed, node⟩
  · have made : Ends (Placeholders.create 1 d) default (fun _ _ => True) fun _ _ => False := by
      cbv
    obtain ⟨q, w, create, -⟩ := made.exists_ok
    obtain ⟨grown, are, -⟩ := (Placeholders.create_leaves 1 d).of_ok Workspace.wellFormed_default
      create
    let p : TracedProblem := ⟨q.time.arena, [], q.unknowns, ["u"]⟩
    have leaves : p.HasLeaves d w := are.unknowns
    have real : ∀ n ∈ [Number.int 3, .int 4], n.isReal = true := by decide
    obtain ⟨es, w', posed, -, entries⟩ :=
      conditions w p d [.int 3, .int 4] grown.after leaves rfl real rfl
    obtain ⟨e, n, listed, number, is⟩ := entries 0 1 1 rfl
    obtain rfl : Number.int 4 = n := Option.some.inj number
    exact ⟨p, w, es, w', e, posed, listed, is⟩

end JetForm
