import JetForm.Proofs.Reduction.Alternating
import JetForm.Proofs.Reduction.Conditions

/-! # Conditions and slots are matched as far as possible

    A condition may fix the slots of its terms.  Sorting succeeds if and only if
    all conditions can be paired with all slots in this way, and otherwise the
    error names what a largest pairing leaves over: a slot if no pairing covers
    them all, and a condition if there are too many.

    The terms of a condition are its derivatives below the order of their
    unknown, which all have slots, and every unknown that occurs in it.  An
    unknown of order zero has no slot, and a condition with such a term is not
    refused when its terms are listed: sorting fails on the missing slot. -/

namespace JetForm

namespace Matching

variable {allowed : Nat → Nat → Prop} {pairs : Finset (Nat × Nat)}

/-- Distinct numbers below `n` are at most `n`, and with `n` of them none is left
    out. -/
theorem card_eq_iff_onto {f : Nat × Nat → Nat} {n : Nat}
    (injective : Set.InjOn f (pairs : Set (Nat × Nat))) (bounded : ∀ p ∈ pairs, f p < n) :
    pairs.card ≤ n ∧ (pairs.card = n ↔ ∀ k < n, ∃ p ∈ pairs, f p = k) := by
  have image : (pairs.image f).card = pairs.card := Finset.card_image_of_injOn injective
  have subset : pairs.image f ⊆ Finset.range n := by
    intro k hk
    obtain ⟨p, hp, rfl⟩ := Finset.mem_image.mp hk
    exact Finset.mem_range.mpr (bounded p hp)
  have most := Finset.card_le_card subset
  rw [image, Finset.card_range] at most
  refine ⟨most, ?_, ?_⟩
  · intro full k hk
    have same := Finset.eq_of_subset_of_card_le subset (by rw [image, full, Finset.card_range])
    exact Finset.mem_image.mp (same ▸ Finset.mem_range.mpr hk)
  · intro onto
    have superset : Finset.range n ⊆ pairs.image f := by
      intro k hk
      exact Finset.mem_image.mpr (onto k (Finset.mem_range.mp hk))
    have least := Finset.card_le_card superset
    rw [image, Finset.card_range] at least
    omega

/-- All of `size` targets have a claimant. -/
def Covers (size : Nat) (pairs : Finset (Nat × Nat)) : Prop :=
  ∀ t < size, ∃ c, (t, c) ∈ pairs

/-- All of `count` claimants have a target. -/
def Serves (count : Nat) (pairs : Finset (Nat × Nat)) : Prop :=
  ∀ c < count, ∃ t, (t, c) ∈ pairs

namespace Pairing

variable {count size : Nat}

theorem card_eq_iff_covers (pairing : Pairing allowed pairs)
    (bounded : ∀ c t, allowed c t → c < count ∧ t < size) :
    pairs.card ≤ size ∧ (pairs.card = size ↔ Covers size pairs) := by
  have ⟨most, onto⟩ := card_eq_iff_onto pairing.targets fun p hp =>
    (bounded p.2 p.1 (pairing.edges p hp)).2
  refine ⟨most, onto.trans (forall₂_congr fun t _ => ?_)⟩
  simp

theorem card_eq_iff_serves (pairing : Pairing allowed pairs)
    (bounded : ∀ c t, allowed c t → c < count ∧ t < size) :
    pairs.card ≤ count ∧ (pairs.card = count ↔ Serves count pairs) := by
  have ⟨most, onto⟩ := card_eq_iff_onto pairing.claimants fun p hp =>
    (bounded p.2 p.1 (pairing.edges p hp)).1
  refine ⟨most, onto.trans (forall₂_congr fun c _ => ?_)⟩
  simp

end Pairing

namespace Maximum

variable {count size : Nat}

/-- A largest pairing covers the targets if any pairing does. -/
theorem covers_of_exists (maximum : Maximum allowed pairs)
    (bounded : ∀ c t, allowed c t → c < count ∧ t < size)
    (some : ∃ other, Pairing allowed other ∧ Covers size other) : Covers size pairs := by
  obtain ⟨other, pairing, covers⟩ := some
  have ⟨most, onto⟩ := maximum.pairing.card_eq_iff_covers bounded
  have full := (pairing.card_eq_iff_covers bounded).2.mpr covers
  have least := maximum.most other pairing
  exact onto.mp (by omega)

/-- It serves the claimants if it covers as many targets, and only then. -/
theorem serves_iff_of_covers (maximum : Maximum allowed pairs)
    (bounded : ∀ c t, allowed c t → c < count ∧ t < size) (covers : Covers size pairs) :
    Serves count pairs ↔ count = size := by
  have full := (maximum.pairing.card_eq_iff_covers bounded).2.mpr covers
  rw [← (maximum.pairing.card_eq_iff_serves bounded).2, full, eq_comm]

end Maximum

end Matching

namespace Conditions

open Matching

variable {a : Arena} {r : Registry} {roots : List Nat}

/-! ## Which condition may fix which slot -/

/-- Slot `s` is that of a term of condition `c`. -/
def MayFix (a : Arena) (r : Registry) (roots : List Nat) (c s : Nat) : Prop :=
  ∃ root ts term, roots[c]? = some root ∧ terms a r root = .ok ts ∧ term ∈ ts ∧
    r.slots.slot? term.1 term.2 = some s

/-- All conditions are paired with all slots. -/
structure Perfect (a : Arena) (r : Registry) (roots : List Nat) (pairs : Finset (Nat × Nat)) :
    Prop where
  pairing : Pairing (MayFix a r roots) pairs
  conditions : Serves roots.length pairs
  slots : Covers r.slots.size pairs

theorem mayFix_bounded (c s : Nat) (may : MayFix a r roots c s) :
    c < roots.length ∧ s < r.slots.size := by
  obtain ⟨root, ts, term, given, -, -, slot⟩ := may
  exact ⟨(List.getElem?_eq_some_iff.mp given).1,
    (List.getElem?_eq_some_iff.mp (SlotTable.slot?_eq_some_iff.mp slot)).1⟩

/-- The slots of the terms of a condition, in the order of the terms. -/
def Listed (a : Arena) (r : Registry) (root : Nat) (slots : List Nat) : Prop :=
  ∃ ts, terms a r root = .ok ts ∧
    List.Forall₂ (fun term s => r.slots.slot? term.1 term.2 = some s) ts slots

/-- The slots are found unless some term has none. -/
theorem candidates_listed (accepted : ∀ root ∈ roots, ∃ ts, terms a r root = .ok ts) :
    Ended (candidates a r r.slots roots) (List.Forall₂ (Listed a r) roots) fun e =>
      ∃ root ∈ roots, ∃ ts, terms a r root = .ok ts ∧
        ∃ term ∈ ts, r.slots.slot? term.1 term.2 = none ∧ e = .missingSlot term.1 term.2 := by
  refine Ended.mapM fun root hr => ?_
  obtain ⟨ts, known⟩ := accepted root hr
  apply Ended.bind
  rw [known]
  have each : ∀ term ∈ ts, Ended (r.slots.slot term.1 term.2)
      (fun s => r.slots.slot? term.1 term.2 = some s) fun e =>
        ∃ root ∈ roots, ∃ ts, terms a r root = .ok ts ∧
          ∃ term ∈ ts, r.slots.slot? term.1 term.2 = none ∧ e = .missingSlot term.1 term.2 := by
    intro term ht
    rw [SlotTable.slot]
    cases found : r.slots.slot? term.1 term.2 with
    | some s => rfl
    | none => exact ⟨root, hr, ts, known, term, ht, found, rfl⟩
  exact (Ended.mapM each).mono (fun slots all => ⟨ts, known, all⟩) fun _ => id

/-- An unknown that is no part of the state occurs in the condition. -/
def Stateless (a : Arena) (r : Registry) (root var : Nat) : Prop :=
  .leaf var ∈ (a.expression root).parts ∧ ∀ n, r.orders[var]? = some n → n < 1

/-- A term has a slot, unless it is an unknown that is no part of the state. -/
theorem stateless_of_slot {root : Nat} {ts : List (Nat × Nat)} (known : terms a r root = .ok ts)
    {term : Nat × Nat} (mem : term ∈ ts) (none : r.slots.slot? term.1 term.2 = none) :
    term.2 = 0 ∧ Stateless a r root term.1 := by
  have termed : Termed a r root ts := (terms_termed root).of_ok known
  obtain ⟨var, order⟩ := term
  have absent : ∀ n, r.orders[var]? = some n → ¬ order < n.toNat := by
    intro n known below
    rw [Registry.slot?_eq known below] at none
    cases none
  obtain ⟨p, part, ⟨rfl, zero⟩ | rfl⟩ := (termed.terms _).mp mem
  · have zero : order = 0 := zero
    refine ⟨zero, part, fun n known => ?_⟩
    have := absent n known
    omega
  · obtain ⟨v, n, eq, known, below⟩ := termed.lower _ _ part
    cases eq
    have := absent n known
    omega

theorem slot_of_stateless {root var : Nat} {ts : List (Nat × Nat)}
    (known : terms a r root = .ok ts) (stateless : Stateless a r root var) :
    (var, 0) ∈ ts ∧ r.slots.slot? var (0 : Nat) = none := by
  have termed : Termed a r root ts := (terms_termed root).of_ok known
  refine ⟨(termed.terms _).mpr ⟨_, stateless.1, Or.inl ⟨rfl, rfl⟩⟩, ?_⟩
  cases found : r.slots.slot? var (0 : Nat) with
  | none => rfl
  | some s =>
    obtain ⟨n, order, below, -⟩ := Registry.exists_of_slot? found
    have := stateless.2 n order
    omega

/-! ## The matching of a sort -/

section Matched

variable {slots : List (List Nat)}

/-- The candidates of the matching are what the conditions may fix. -/
theorem mem_candidates_iff (listed : List.Forall₂ (Listed a r) roots slots) {c s : Nat} :
    (c < roots.length ∧ s ∈ slots[c]?.getD []) ↔ MayFix a r roots c s := by
  constructor
  · rintro ⟨-, mem⟩
    cases known : slots[c]? with
    | none =>
      rw [known] at mem
      cases mem
    | some ss =>
      rw [known] at mem
      obtain ⟨root, given, ts, accepted, related⟩ := exists_of_forall₂_right listed known
      obtain ⟨term, term_mem, slot⟩ := exists_mem_of_forall₂_right related mem
      exact ⟨root, ts, term, given, accepted, term_mem, slot⟩
  · rintro ⟨root, ts, term, given, accepted, mem, slot⟩
    refine ⟨(List.getElem?_eq_some_iff.mp given).1, ?_⟩
    obtain ⟨ss, known, ts', accepted', related⟩ := exists_of_forall₂_left listed given
    rw [accepted] at accepted'
    cases accepted'
    obtain ⟨s', stored, slot'⟩ := exists_mem_of_forall₂_left related mem
    rw [slot] at slot'
    cases slot'
    rw [known]
    exact stored

/-- The matching of a sort. -/
structure Matched (a : Arena) (r : Registry) (roots : List Nat) (m : Matching) : Prop where
  maximum : Maximum (MayFix a r roots) m.pairs.toFinset
  owner : ∀ s c, m.owner? s = some c ↔ (s, c) ∈ m.pairs.toFinset
  target : ∀ c, m.target? c = none → ∀ s, (s, c) ∉ m.pairs.toFinset

theorem greedy_matched (listed : List.Forall₂ (Listed a r) roots slots) :
    Matched a r roots (greedy (fun c => slots[c]?.getD []) roots.length) := by
  have same : (fun c s => c < roots.length ∧ s ∈ slots[c]?.getD []) = MayFix a r roots := by
    funext c s
    exact propext (mem_candidates_iff listed)
  have maximum := greedy_maximum (fun c => slots[c]?.getD []) roots.length
  have valid := valid_greedy (fun c => slots[c]?.getD []) roots.length
  rw [same] at maximum
  generalize greedy (fun c => slots[c]?.getD []) roots.length = m at maximum valid
  have owner : ∀ s c, m.owner? s = some c ↔ (s, c) ∈ m.pairs.toFinset := by
    intro s c
    rw [List.mem_toFinset]
    exact ⟨mem_of_owner?, owner?_of_mem valid⟩
  refine ⟨maximum, owner, ?_⟩
  intro c none s mem
  obtain ⟨t, some⟩ := target?_of_has ⟨s, (owner s c).mpr mem⟩
  rw [none] at some
  cases some

variable {m : Matching}

/-- What a largest pairing leaves over: a slot if no pairing covers all, or else
    a condition. -/
inductive Defect (a : Arena) (r : Registry) (roots : List Nat) : Error → Prop
  | uncovered (s var order : Nat) (pairs : Finset (Nat × Nat))
      (slot : r.slots.slot? var order = some s)
      (none : ∀ pairs, Pairing (MayFix a r roots) pairs → ¬ Covers r.slots.size pairs)
      (maximum : Maximum (MayFix a r roots) pairs) (left : ∀ c, (s, c) ∉ pairs) :
      Defect a r roots (.slotUnfixed roots.length r.slots.size s var order)
  | unmatched (c root : Nat) (ts : List (Nat × Nat)) (pairs : Finset (Nat × Nat))
      (given : roots[c]? = some root) (listed : terms a r root = .ok ts)
      (maximum : Maximum (MayFix a r roots) pairs) (covers : Covers r.slots.size pairs)
      (left : ∀ s, (s, c) ∉ pairs) :
      Defect a r roots (.conditionRedundant roots.length r.slots.size c ts.head?)

theorem defect_uncovered (matched : Matched a r roots m) {s : Nat}
    (found : (List.range r.slots.size).find? (fun s => (m.owner? s).isNone) = some s) :
    Defect a r roots (.slotUnfixed roots.length r.slots.size s (keyOf r.slots s).1
      (keyOf r.slots s).2) := by
  have inside : s < r.slots.size := List.mem_range.mp (List.mem_of_find?_eq_some found)
  have free : m.owner? s = none := by simpa using List.find?_some found
  have left : ∀ c, (s, c) ∉ m.pairs.toFinset := by
    intro c mem
    rw [(matched.owner s c).mpr mem] at free
    cases free
  obtain ⟨var, n, k, known, below, rfl⟩ := Registry.exists_of_lt_slots inside
  have slot := Registry.slot?_eq known below
  rw [keyOf_eq slot]
  refine Defect.uncovered _ var k _ slot ?_ matched.maximum left
  intro pairs pairing covers
  obtain ⟨c, mem⟩ := matched.maximum.covers_of_exists mayFix_bounded ⟨pairs, pairing, covers⟩ _ inside
  exact left c mem

theorem defect_unmatched (listed : List.Forall₂ (Listed a r) roots slots)
    (matched : Matched a r roots m) (covers : Covers r.slots.size m.pairs.toFinset)
    (other : roots.length ≠ r.slots.size) {extra : Nat}
    (first : extra = ((List.range roots.length).find? fun c => (m.target? c).isNone).getD 0) :
    Defect a r roots (.conditionRedundant roots.length r.slots.size extra
      (((slots[extra]?.getD []).head?).map (keyOf r.slots))) := by
  -- more conditions than pairs, so one of them is left over
  have unserved : ∃ c < roots.length, m.target? c = none := by
    by_contra all
    refine other ((matched.maximum.serves_iff_of_covers mayFix_bounded covers).mp ?_)
    intro c hc
    cases found : m.target? c with
    | none => exact absurd ⟨c, hc, found⟩ all
    | some t =>
      obtain ⟨pair, mem, eq⟩ := Option.map_eq_some_iff.mp found
      have stored := List.mem_of_find?_eq_some mem
      have same : pair.2 = c := by simpa using List.find?_some mem
      exact ⟨pair.1, List.mem_toFinset.mpr (same ▸ stored)⟩
  have some : ∃ c, (List.range roots.length).find? (fun c => (m.target? c).isNone) = some c := by
    obtain ⟨c, hc, none⟩ := unserved
    rw [← Option.isSome_iff_exists, List.find?_isSome]
    exact ⟨c, List.mem_range.mpr hc, by simp [none]⟩
  obtain ⟨c, found⟩ := some
  rw [found, Option.getD_some] at first
  subst first
  have inside : extra < roots.length := List.mem_range.mp (List.mem_of_find?_eq_some found)
  have free : m.target? extra = none := by simpa using List.find?_some found
  have given := List.getElem?_eq_getElem inside
  obtain ⟨ss, known, ts, accepted, related⟩ := exists_of_forall₂_left listed given
  have head : (ss.head?).map (keyOf r.slots) = ts.head? := by
    cases related with
    | nil => rfl
    | cons slot _ => simp [keyOf_eq slot]
  rw [known, Option.getD_some, head]
  exact Defect.unmatched extra _ ts _ given accepted matched.maximum covers (matched.target extra free)

/-- The conditions in the order of the slots that they fix. -/
structure Sorts (a : Arena) (r : Registry) (roots : List Nat) (location : Float)
    (endpoint : Endpoint) (sorted : SortedConditions) : Prop where
  location : sorted.location = location
  endpoint : sorted.endpoint = endpoint
  length : sorted.conditions.length = r.slots.size
  fixes : ∀ s c, sorted.conditions[s]? = some c → c.slot = s ∧ MayFix a r roots c.index s ∧
    r.slots.slot? c.var c.order = some s ∧ roots[c.index]? = some c.handle
  permutation : (sorted.conditions.map Condition.index).Perm (List.range roots.length)

theorem conditionAt_matched (matched : Matched a r roots m) {s i : Nat}
    (owned : m.owner? s = some i) :
    ∃ c, conditionAt r.slots roots m s = some c ∧ c.index = i ∧ c.slot = s ∧
      MayFix a r roots i s ∧ r.slots.slot? c.var c.order = some s ∧ roots[i]? = some c.handle := by
  have may := matched.maximum.pairing.edges _ ((matched.owner s i).mp owned)
  obtain ⟨root, ts, term, given, -, -, slot⟩ := id may
  refine ⟨⟨i, term.1, term.2, s, root⟩, ?_, rfl, rfl, may, slot, given⟩
  simp [conditionAt, owned, given, keyOf_eq slot]

/-- The owners of all slots are the sorted conditions. -/
theorem sorts_of_perfect (matched : Matched a r roots m)
    (perfect : Perfect a r roots m.pairs.toFinset) (location : Float) (endpoint : Endpoint) :
    Sorts a r roots location endpoint
      ⟨(List.range r.slots.size).filterMap (conditionAt r.slots roots m), location, endpoint⟩ := by
  have each : ∀ s < r.slots.size, ∃ c, conditionAt r.slots roots m s = some c ∧
      m.owner? s = some c.index ∧ c.slot = s ∧ MayFix a r roots c.index s ∧
        r.slots.slot? c.var c.order = some s ∧ roots[c.index]? = some c.handle := by
    intro s hs
    obtain ⟨i, mem⟩ := perfect.slots s hs
    have owned := (matched.owner s i).mpr mem
    obtain ⟨c, eq, rfl, rest⟩ := conditionAt_matched matched owned
    exact ⟨c, eq, owned, rest⟩
  have : Nonempty Condition := ⟨⟨0, 0, 0, 0, 0⟩⟩
  -- the pairing is perfect, so the condition of a slot is a function of the slot
  choose! assigned is_assigned owner fixes using each
  have all : (List.range r.slots.size).filterMap (conditionAt r.slots roots m) =
      (List.range r.slots.size).map assigned :=
    List.filterMap_eq_map_iff_forall_eq_some.mpr fun s hs => is_assigned s (List.mem_range.mp hs)
  rw [all]
  refine ⟨rfl, rfl, by simp, ?_, ?_⟩
  · intro s c stored
    have stored : ((List.range r.slots.size).map assigned)[s]? = some c := stored
    obtain ⟨inside, rfl⟩ := List.getElem?_eq_some_iff.mp stored
    rw [List.length_map, List.length_range] at inside
    simpa using fixes s inside
  · show (((List.range r.slots.size).map assigned).map Condition.index).Perm _
    rw [List.map_map]
    refine (List.perm_ext_iff_of_nodup ?_ List.nodup_range).mpr ?_
    · -- a condition that fixed two slots would occur in two pairs
      refine List.Nodup.map_on ?_ List.nodup_range
      intro s hs s' hs' same
      have mem := (matched.owner s _).mp (owner s (List.mem_range.mp hs))
      have mem' := (matched.owner s' _).mp (owner s' (List.mem_range.mp hs'))
      exact congrArg Prod.fst (matched.maximum.pairing.claimants mem mem' same)
    · intro c
      rw [List.mem_map, List.mem_range]
      constructor
      · rintro ⟨s, hs, rfl⟩
        exact (mayFix_bounded _ s (fixes s (List.mem_range.mp hs)).2.1).1
      · intro hc
        obtain ⟨s, mem⟩ := perfect.conditions c hc
        have hs := (mayFix_bounded c s (matched.maximum.pairing.edges _ mem)).2
        have owned := owner s hs
        rw [(matched.owner s c).mpr mem] at owned
        exact ⟨s, List.mem_range.mpr hs, (Option.some.inj owned).symm⟩

/-- A pairing of all conditions with all slots leaves nothing over. -/
theorem Defect.not_perfect {e : Error} (defect : Defect a r roots e) :
    ¬ ∃ pairs, Perfect a r roots pairs := by
  rintro ⟨perfect, is⟩
  cases defect with
  | uncovered s var order pairs slot none maximum left => exact none perfect is.pairing is.slots
  | unmatched c root ts pairs given listed maximum covers left =>
    have full := (is.pairing.card_eq_iff_covers mayFix_bounded).2.mpr is.slots
    have full' := (is.pairing.card_eq_iff_serves mayFix_bounded).2.mpr is.conditions
    have serves := (maximum.serves_iff_of_covers mayFix_bounded covers).mpr (by omega)
    obtain ⟨s, mem⟩ := serves c (List.getElem?_eq_some_iff.mp given).1
    exact left s mem

theorem covers_of_owned (matched : Matched a r roots m)
    (owned : (List.range r.slots.size).find? (fun s => (m.owner? s).isNone) = none) :
    Covers r.slots.size m.pairs.toFinset := by
  intro s hs
  have some := List.find?_eq_none.mp owned s (List.mem_range.mpr hs)
  obtain ⟨c, owner⟩ := Option.ne_none_iff_exists'.mp (by simpa using some)
  exact ⟨c, (matched.owner s c).mp owner⟩

theorem defect_of_eq_some (listed : List.Forall₂ (Listed a r) roots slots)
    (matched : Matched a r roots m) {e : Error}
    (found : defect roots.length r.slots slots m = some e) : Defect a r roots e := by
  rw [defect] at found
  split at found
  next s first =>
    cases found
    exact defect_uncovered matched first
  next owned =>
    split at found
    next => cases found
    next other =>
      cases found
      exact defect_unmatched listed matched (covers_of_owned matched owned) other rfl

theorem perfect_of_eq_none (matched : Matched a r roots m)
    (none : defect roots.length r.slots slots m = none) : Perfect a r roots m.pairs.toFinset := by
  rw [defect] at none
  split at none
  next => cases none
  next owned =>
    split at none
    next same =>
      have covers := covers_of_owned matched owned
      have serves := (matched.maximum.serves_iff_of_covers mayFix_bounded covers).mpr same
      exact ⟨matched.maximum.pairing, serves, covers⟩
    next => cases none

/-- With all terms in the state, a sort ends with a pairing or with a defect. -/
theorem sort_listed (listed : List.Forall₂ (Listed a r) roots slots)
    (found : candidates a r r.slots roots = .ok slots) (location : Float) (endpoint : Endpoint) :
    Ended (sort a roots r r.slots location endpoint)
      (fun sorted => Sorts a r roots location endpoint sorted ∧ ∃ pairs, Perfect a r roots pairs)
      (Defect a r roots) := by
  have matched := greedy_matched listed
  simp only [sort, found, bind, Except.bind]
  generalize greedy (fun c => slots[c]?.getD []) roots.length = m at matched
  cases chosen : defect roots.length r.slots slots m with
  | some e => exact defect_of_eq_some listed matched chosen
  | none =>
    have perfect := perfect_of_eq_none matched chosen
    exact ⟨sorts_of_perfect matched perfect location endpoint, _, perfect⟩

end Matched

/-! ## When sorting succeeds -/

/-- Let the terms of all conditions be known.  If all unknowns in them are part
    of the state, sorting succeeds exactly when the conditions can be paired with
    the slots, each condition fixes the slot at its place, and a failure names
    what is left over.  Otherwise some unknown that is no part of the state has no
    slot. -/
theorem sort_matching (accepted : ∀ root ∈ roots, ∃ ts, terms a r root = .ok ts)
    (location : Float) (endpoint : Endpoint) :
    ((¬ ∃ root ∈ roots, ∃ var, Stateless a r root var) →
      ((∃ sorted, sort a roots r r.slots location endpoint = .ok sorted) ↔
        ∃ pairs, Perfect a r roots pairs) ∧
      (∀ sorted, sort a roots r r.slots location endpoint = .ok sorted →
        Sorts a r roots location endpoint sorted) ∧
      ∀ e, sort a roots r r.slots location endpoint = .error e → Defect a r roots e) ∧
    ((∃ root ∈ roots, ∃ var, Stateless a r root var) →
      ∃ root ∈ roots, ∃ var, Stateless a r root var ∧
        sort a roots r r.slots location endpoint = .error (.missingSlot var 0)) := by
  have ended := candidates_listed accepted
  -- `candidates` fails only on a term that has no slot, before any pairing is looked for
  cases found : candidates a r r.slots roots with
  | ok slots =>
    have listed := ended.of_ok found
    have ended := sort_listed listed found location endpoint
    refine ⟨fun _ => ⟨⟨?_, ?_⟩, fun sorted run => (ended.of_ok run).1,
      fun e run => ended.of_error run⟩, ?_⟩
    · rintro ⟨sorted, run⟩
      exact (ended.of_ok run).2
    · intro perfect
      cases run : sort a roots r r.slots location endpoint with
      | ok sorted => exact ⟨sorted, rfl⟩
      | error e => exact absurd perfect (ended.of_error run).not_perfect
    · rintro ⟨root, hr, var, stateless⟩
      obtain ⟨i, given⟩ := List.getElem?_of_mem hr
      obtain ⟨ss, -, ts, known, related⟩ := exists_of_forall₂_left listed given
      obtain ⟨mem, none⟩ := slot_of_stateless known stateless
      obtain ⟨j, stored⟩ := List.getElem?_of_mem mem
      obtain ⟨s, -, slot⟩ := exists_of_forall₂_left related stored
      rw [none] at slot
      cases slot
  | error e =>
    obtain ⟨root, hr, ts, known, term, mem, none, rfl⟩ := ended.of_error found
    obtain ⟨zero, stateless⟩ := stateless_of_slot known mem none
    refine ⟨fun all => absurd ⟨root, hr, _, stateless⟩ all, fun _ => ⟨root, hr, _, stateless, ?_⟩⟩
    rw [zero] at found
    rw [sort, found]
    rfl

/-- Of two conditions on the slope, the first makes room for the second. -/
theorem sort_matching_slopes : ∃ a, slopes (.empty 1) = .ok [2, 3] a ∧
    (∀ root ∈ [2, 3], ∃ ts, terms a curved root = .ok ts) ∧
    (¬ ∃ root ∈ [2, 3], ∃ var, Stateless a curved root var) ∧
    ∃ sorted, sort a [2, 3] curved curved.slots 0 .left = .ok sorted ∧
      Sorts a curved [2, 3] 0 .left sorted := by
  have built : Ends slopes (.empty 1) (fun hs a => hs = [2, 3] ∧
      terms a curved 2 = .ok [(0, 1), (0, 0)] ∧ terms a curved 3 = .ok [(0, 1), (0, 0)] ∧
      sort a [2, 3] curved curved.slots 0 .left =
        .ok ⟨[⟨0, 0, 0, 0, 2⟩, ⟨1, 0, 1, 1, 3⟩], 0, .left⟩) fun _ _ => False := by
    cbv
  obtain ⟨hs, a, run, rfl, first, second, sorted⟩ := built.exists_ok
  have listed : ∀ root ∈ [2, 3], terms a curved root = .ok [(0, 1), (0, 0)] := by
    intro root hr
    rcases List.mem_cons.mp hr with rfl | hr
    · exact first
    · exact List.mem_singleton.mp hr ▸ second
  have accepted : ∀ root ∈ [2, 3], ∃ ts, terms a curved root = .ok ts :=
    fun root hr => ⟨_, listed root hr⟩
  have state : ¬ ∃ root ∈ [2, 3], ∃ var, Stateless a curved root var := by
    rintro ⟨root, hr, var, stateless⟩
    obtain ⟨mem, none⟩ := slot_of_stateless (listed root hr) stateless
    have zero : var = 0 := by simpa using mem
    subst zero
    exact absurd none (by decide)
  have answer := (sort_matching accepted 0 .left).1 state
  exact ⟨a, run, accepted, state, _, sorted, answer.2.1 _ sorted⟩

/-! ## An unknown that is no part of the state -/

/-- The condition `u + v = 0`. -/
def balance : Building Nat := do
  let u ← Arena.leaf 0
  let v ← Arena.leaf 1
  Arena.binary .plus (.treeTree u v)

/-- Two unknowns, the first of which is never differentiated. -/
def algebraic : Registry := ⟨[0, 1], ["u", "v"], by decide⟩

/-- The terms of the condition are listed without complaint, and it could fix the
    only slot.  Sorting fails all the same, for the first unknown has no slot. -/
theorem sort_balance : ∃ a, balance (.empty 2) = .ok 2 a ∧
    terms a algebraic 2 = .ok [(0, 0), (1, 0)] ∧ (∃ pairs, Perfect a algebraic [2] pairs) ∧
    sort a [2] algebraic algebraic.slots 0 .left = .error (.missingSlot 0 0) := by
  have built : Ends balance (.empty 2) (fun h a => h = 2 ∧
      terms a algebraic 2 = .ok [(0, 0), (1, 0)] ∧
      sort a [2] algebraic algebraic.slots 0 .left = .error (.missingSlot 0 0))
      fun _ _ => False := by
    cbv
  obtain ⟨h, a, run, rfl, listed, failed⟩ := built.exists_ok
  have may : MayFix a algebraic [2] 0 0 :=
    ⟨2, _, (1, 0), rfl, listed, by decide, by decide⟩
  refine ⟨a, run, listed, ⟨{(0, 0)}, ⟨?_, by simp, by simp⟩, ?_, ?_⟩, failed⟩
  · intro p hp
    rw [Finset.mem_singleton.mp hp]
    exact may
  · intro c hc
    exact ⟨0, by simpa using hc⟩
  · intro s hs
    have one : algebraic.slots.size = 1 := by decide
    exact ⟨0, by simpa [one] using hs⟩

end Conditions

end JetForm
