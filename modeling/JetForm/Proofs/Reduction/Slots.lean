import JetForm.Reduction.Registry
import Mathlib

/-! # The layout of the state

    The entries of an unknown are consecutive.  `Registry.start` is the slot of
    the unknown itself, and derivative `j` comes `j` slots later.  The keys of
    the slots have this layout, and so do the equations of the first-order
    form: both are `Blocks`, one for each unknown. -/

namespace JetForm

namespace SlotTable

variable {slots : SlotTable}

/-- A slot is the position of its key. -/
theorem slot?_eq_some_iff {var order : Int} {s : Nat} :
    slots.slot? var order = some s ↔ slots.keys[s]? = some (var, order) := by
  rw [slot?, List.idxOf?_eq_some_iff]
  constructor
  · rintro ⟨inside, eq, -⟩
    rw [List.getElem?_eq_getElem inside, eq]
  · intro stored
    obtain ⟨inside, eq⟩ := List.getElem?_eq_some_iff.mp stored
    refine ⟨inside, eq, ?_⟩
    intro t before same
    exact Nat.ne_of_lt before ((List.Nodup.getElem_inj_iff slots.nodup).mp (same.trans eq.symm))

end SlotTable

/-! ## Blocks -/

/-- Entry `j` of block `i` comes after all blocks before. -/
theorem getElem?_flatten_block {α : Type} {ls : List (List α)} {i : Nat} {l : List α}
    (block : ls[i]? = some l) {j : Nat} (below : j < l.length) :
    ls.flatten[((ls.take i).map List.length).sum + j]? = l[j]? := by
  induction ls generalizing i with
  | nil => cases block
  | cons m ls ih =>
    rw [List.flatten_cons]
    cases i with
    | zero =>
      cases block
      rw [List.take_zero, List.map_nil, List.sum_nil, Nat.zero_add,
        List.getElem?_append_left below]
    | succ i =>
      rw [List.take_succ_cons, List.map_cons, List.sum_cons, Nat.add_assoc,
        List.getElem?_append_right (Nat.le_add_right _ _), Nat.add_sub_cancel_left, ih block]

/-- Every entry belongs to some block. -/
theorem exists_block_of_lt {α : Type} {ls : List (List α)} {k : Nat}
    (inside : k < ls.flatten.length) : ∃ i l j, ls[i]? = some l ∧ j < l.length ∧
      k = ((ls.take i).map List.length).sum + j := by
  induction ls generalizing k with
  | nil => cases inside
  | cons m ls ih =>
    rw [List.flatten_cons, List.length_append] at inside
    by_cases first : k < m.length
    · exact ⟨0, m, k, rfl, first, by simp⟩
    · obtain ⟨i, l, j, block, below, eq⟩ := ih (k := k - m.length) (by omega)
      refine ⟨i + 1, l, j, block, below, ?_⟩
      rw [List.take_succ_cons, List.map_cons, List.sum_cons]
      omega

namespace Registry

variable {r : Registry}

/-- The first slot of an unknown. -/
def start (r : Registry) (var : Nat) : Nat :=
  ((r.orders.take var).map Int.toNat).sum

/-- A block for each unknown, as long as its order. -/
def Blocks (r : Registry) {α : Type} (ls : List (List α)) : Prop :=
  ls.map List.length = r.orders.map Int.toNat

theorem blocks_of_forall₂ {α β : Type} {f : β → List α} {parts : List β}
    (lengths : List.Forall₂ (fun (entry : Int × Nat) q => (f q).length = entry.1.toNat)
      r.orders.zipIdx parts) : r.Blocks (parts.map f) := by
  have same : List.Forall₂ (fun m l => l = m) (parts.map fun q => (f q).length)
      (r.orders.zipIdx.map fun entry => entry.1.toNat) := by
    rw [List.forall₂_map_left_iff, List.forall₂_map_right_iff]
    exact lengths.flip.imp fun _ _ => Eq.symm
  rw [Blocks, List.map_map, ← List.zipIdx_map_fst 0 r.orders, List.map_map]
  exact List.forall₂_eq_eq_eq ▸ same.imp fun _ _ => Eq.symm

theorem Blocks.start_eq {α : Type} {ls : List (List α)} (blocks : r.Blocks ls) (var : Nat) :
    r.start var = ((ls.take var).map List.length).sum := by
  rw [start, List.map_take, List.map_take, blocks]

theorem Blocks.getElem? {α : Type} {ls : List (List α)} (blocks : r.Blocks ls) {var : Nat}
    {l : List α} (block : ls[var]? = some l) {j : Nat} (below : j < l.length) :
    ls.flatten[r.start var + j]? = l[j]? := by
  rw [blocks.start_eq]
  exact getElem?_flatten_block block below

theorem Blocks.exists_of_lt {α : Type} {ls : List (List α)} (blocks : r.Blocks ls) {k : Nat}
    (inside : k < ls.flatten.length) :
    ∃ var l j, ls[var]? = some l ∧ j < l.length ∧ k = r.start var + j := by
  obtain ⟨var, l, j, block, below, eq⟩ := exists_block_of_lt inside
  exact ⟨var, l, j, block, below, blocks.start_eq var ▸ eq⟩

/-! ## Slots -/

theorem keysFrom_eq (v : Nat) (orders : List Int) :
    keysFrom v orders = ((orders.zipIdx v).map fun entry => keysOf entry.2 entry.1).flatten := by
  induction orders generalizing v with
  | nil => rfl
  | cons n orders ih => rw [keysFrom, ih, List.zipIdx_cons, List.map_cons, List.flatten_cons]

theorem keys_slots_eq :
    r.slots.keys = (r.orders.zipIdx.map fun entry => keysOf entry.2 entry.1).flatten :=
  keysFrom_eq 0 r.orders

theorem blocks_keys : r.Blocks (r.orders.zipIdx.map fun entry => keysOf entry.2 entry.1) := by
  rw [Blocks, List.map_map, ← List.zipIdx_map_fst 0 r.orders, List.map_map, List.zipIdx_map_fst]
  refine List.map_congr_left fun entry _ => ?_
  simp [keysOf]

/-- There is an entry for each slot. -/
theorem Blocks.length_flatten {α : Type} {ls : List (List α)} (blocks : r.Blocks ls) :
    ls.flatten.length = r.slots.size := by
  rw [SlotTable.size, keys_slots_eq, List.length_flatten, List.length_flatten, blocks,
    blocks_keys]

theorem block_keys {var : Nat} {n : Int} (known : r.orders[var]? = some n) :
    (r.orders.zipIdx.map fun entry => keysOf entry.2 entry.1)[var]? = some (keysOf var n) := by
  simp [known]

/-- Each slot holds a derivative below the order of its unknown. -/
theorem exists_of_lt_slots {s : Nat} (inside : s < r.slots.size) :
    ∃ (var : Nat) (n : Int) (k : Nat), r.orders[var]? = some n ∧ k < n.toNat ∧
      s = r.start var + k := by
  rw [SlotTable.size, keys_slots_eq] at inside
  obtain ⟨var, l, k, block, below, eq⟩ := blocks_keys.exists_of_lt inside
  rw [List.getElem?_map, List.getElem?_zipIdx, Option.map_map] at block
  obtain ⟨n, known, rfl⟩ := Option.map_eq_some_iff.mp block
  exact ⟨var, n, k, known, by simpa [keysOf] using below, eq⟩

theorem keys_slots {var : Nat} {n : Int} (known : r.orders[var]? = some n) {k : Nat}
    (below : k < n.toNat) : r.slots.keys[r.start var + k]? = some ((var : Int), (k : Int)) := by
  rw [keys_slots_eq, blocks_keys.getElem? (block_keys known) (by simpa [keysOf] using below)]
  simp [keysOf, below]

/-- The slot of a derivative of an unknown. -/
theorem slot?_eq {var : Nat} {n : Int} (known : r.orders[var]? = some n) {k : Nat}
    (below : k < n.toNat) : r.slots.slot? var k = some (r.start var + k) :=
  SlotTable.slot?_eq_some_iff.mpr (keys_slots known below)

/-- A derivative has a slot if it is below the order of its unknown, and only
    then. -/
theorem exists_of_slot? {var k s : Nat} (slot : r.slots.slot? var k = some s) :
    ∃ n : Int, r.orders[var]? = some n ∧ k < n.toNat ∧ s = r.start var + k := by
  have stored := SlotTable.slot?_eq_some_iff.mp slot
  obtain ⟨v, n, j, known, below, rfl⟩ :=
    exists_of_lt_slots (r := r) (s := s) (List.getElem?_eq_some_iff.mp stored).1
  rw [keys_slots known below] at stored
  obtain ⟨same, same'⟩ := Prod.mk.inj (Option.some.inj stored)
  obtain rfl := Int.ofNat.inj same
  obtain rfl := Int.ofNat.inj same'
  exact ⟨n, known, below, rfl⟩

/-! ## Offsets -/

theorem getElem?_partialSums {orders : List Int} (nonneg : ∀ n ∈ orders, 0 ≤ n) (total : Int)
    {i : Nat} (inside : i < orders.length) :
    (partialSums total orders)[i]? = some (total + (((orders.take i).map Int.toNat).sum : Nat)) := by
  induction orders generalizing total i with
  | nil => cases inside
  | cons n orders ih =>
    cases i with
    | zero => simp [partialSums]
    | succ i =>
      have positive := nonneg n List.mem_cons_self
      rw [partialSums, List.getElem?_cons_succ,
        ih (fun m hm => nonneg m (List.mem_cons_of_mem n hm)) _ (Nat.lt_of_succ_lt_succ inside),
        List.take_succ_cons, List.map_cons, List.sum_cons]
      congr 1
      omega

/-- The offset of an unknown is its first slot. -/
theorem offsets_eq (nonneg : ∀ n ∈ r.orders, 0 ≤ n) {var : Nat} (inside : var < r.size) :
    r.offsets[var]? = some (r.start var : Int) := by
  rw [offsets, getElem?_partialSums nonneg 0 inside, Int.zero_add]
  rfl

end Registry

end JetForm
