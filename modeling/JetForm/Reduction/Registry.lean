import JetForm.Error

/-! # Registries and slot tables

    A registry lists the unknowns of a problem with the highest order of
    derivative of each.  The state vector of the first-order form holds, for an
    unknown of order `n`, the derivatives of order `0` to `n - 1` in
    consecutive slots: unknown after unknown, lower orders first.

    A slot table hands out slots one after the other, so a slot is the position
    of its key.  `Registry.slots` is the table of all state entries. -/

namespace JetForm

/-- The unknowns in order, each with its order and its name. -/
structure Registry where
  orders : List Int
  names : List String
  length_names : names.length = orders.length

namespace Registry

/-- Names of unknowns that have none of their own. -/
def defaultNames (count : Nat) : List String :=
  (List.range count).map fun i => s!"u{i}"

/-- A registry; without names the unknowns are called `u0`, `u1`, and so on. -/
def create (orders : List Int) (names : List String := []) : Except Error Registry :=
  let names := if names.isEmpty then defaultNames orders.length else names
  if length : names.length = orders.length then .ok ⟨orders, names, length⟩
  else .error (.nameCount names.length orders.length)

/-- Number of unknowns. -/
def size (r : Registry) : Nat :=
  r.orders.length

/-- The order of an unknown. -/
def order (r : Registry) (var : Nat) : Except Error Int :=
  match r.orders[var]? with
  | some n => .ok n
  | none => .error .orderIndex

/-- Sums of the entries before each position. -/
def partialSums : Int → List Int → List Int
  | _, [] => []
  | total, n :: rest => total :: partialSums (total + n) rest

/-- The first slot of each unknown. -/
def offsets (r : Registry) : List Int :=
  partialSums 0 r.orders

/-- Length of the state vector. -/
def stateSize (r : Registry) : Int :=
  r.orders.foldl (· + ·) 0

end Registry

/-! ## Slots -/

/-- State entries in the order of their slots; each is given by an unknown and
    an order of derivative. -/
structure SlotTable where
  keys : List (Int × Int)
  nodup : keys.Nodup

namespace SlotTable

def empty : SlotTable :=
  ⟨[], List.nodup_nil⟩

/-- Number of slots. -/
def size (t : SlotTable) : Nat :=
  t.keys.length

/-- The slot of a derivative, if it has one. -/
def slot? (t : SlotTable) (var order : Int) : Option Nat :=
  t.keys.idxOf? (var, order)

/-- The slot of a derivative of an unknown. -/
def slot (t : SlotTable) (var order : Nat) : Except Error Nat :=
  match t.slot? var order with
  | some s => .ok s
  | none => .error (.missingSlot var order)

/-- The next slot, for a derivative that has none yet. -/
def allocate (t : SlotTable) (var order : Int) : Except Error (Nat × SlotTable) :=
  if taken : (var, order) ∈ t.keys then .error (.slotTaken var order)
  else .ok (t.size, ⟨t.keys ++ [(var, order)], by
    refine List.nodup_append.mpr ⟨t.nodup, by simp, ?_⟩
    intro a ha b hb
    obtain rfl := List.mem_singleton.mp hb
    exact fun h => taken (h ▸ ha)⟩)

end SlotTable

namespace Registry

/-- The derivatives of one unknown that belong to the state. -/
def keysOf (var : Nat) (order : Int) : List (Int × Int) :=
  (List.range order.toNat).map fun (j : Nat) => ((var : Int), (j : Int))

/-- The state entries, unknown after unknown, with lower orders first. -/
def keysFrom : Nat → List Int → List (Int × Int)
  | _, [] => []
  | var, n :: rest => keysOf var n ++ keysFrom (var + 1) rest

theorem fst_of_mem_keysOf {var : Nat} {n : Int} {key : Int × Int} (h : key ∈ keysOf var n) :
    key.1 = var := by
  simp only [keysOf, List.mem_map] at h
  obtain ⟨j, _, rfl⟩ := h
  rfl

theorem le_fst_of_mem_keysFrom {var : Nat} {orders : List Int} {key : Int × Int}
    (h : key ∈ keysFrom var orders) : (var : Int) ≤ key.1 := by
  induction orders generalizing var with
  | nil => simp [keysFrom] at h
  | cons n rest ih =>
    rcases List.mem_append.mp h with h | h
    · exact Int.le_of_eq (fst_of_mem_keysOf h).symm
    · have := ih h
      omega

theorem nodup_keysFrom (var : Nat) (orders : List Int) : (keysFrom var orders).Nodup := by
  induction orders generalizing var with
  | nil => exact List.nodup_nil
  | cons n rest ih =>
    refine List.nodup_append.mpr ⟨?_, ih (var + 1), ?_⟩
    · rw [keysOf, List.nodup_iff_pairwise_ne, List.pairwise_map]
      exact List.nodup_range.imp fun h same => h (Int.ofNat.inj (Prod.mk.inj same).2)
    · intro a ha b hb same
      have below := fst_of_mem_keysOf ha
      have above := le_fst_of_mem_keysFrom hb
      rw [← same, below] at above
      omega

/-- The slots of all state entries. -/
def slots (r : Registry) : SlotTable :=
  ⟨keysFrom 0 r.orders, nodup_keysFrom 0 r.orders⟩

end Registry

end JetForm
