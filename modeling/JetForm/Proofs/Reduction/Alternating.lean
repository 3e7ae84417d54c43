import JetForm.Proofs.Reduction.Matching
import Mathlib

/-! # The size of a matching

    A search in vain has walked every alternating path from its claimant: from
    claimants to their candidates, and from targets to their owners.  All
    candidates of the claimants on the way have owners among these claimants, so
    there are fewer of them than claimants, and no matching can place all.

    Later searches do not enter such a set of claimants and targets, so a
    claimant that is left out once stays out for good reason.  Together the
    claimants outside of all such sets and the targets inside cover every
    candidate, which makes the matching as large as any. -/

namespace JetForm

namespace Matching

variable {m : Matching} {candidates : Nat → List Nat}

/-! ## Placed claimants -/

theorem mem_of_owner? {target claimant : Nat} (owned : m.owner? target = some claimant) :
    (target, claimant) ∈ m.pairs := by
  obtain ⟨before, after, eq, -⟩ := List.lookup_eq_some_iff.mp owned
  simp [eq]

/-- The claimants that have been placed: there is one pair for each of them. -/
structure Placed (candidates : Nat → List Nat) (placed : Finset Nat) (m : Matching) : Prop where
  valid : m.Valid candidates
  has : ∀ claimant ∈ placed, m.Has claimant
  count : m.pairs.length = placed.card

theorem placed_empty : empty.Placed candidates ∅ :=
  ⟨valid_empty, by simp, rfl⟩

namespace Placed

variable {placed : Finset Nat}

/-- There are as many pairs as claimants that own a target, so nobody owns two
    targets and nobody else owns one. -/
theorem owners (is : m.Placed candidates placed) :
    (m.pairs.map Prod.snd).Nodup ∧ (m.pairs.map Prod.snd).toFinset = placed := by
  have subset : placed ⊆ (m.pairs.map Prod.snd).toFinset := by
    intro claimant mem
    obtain ⟨target, owned⟩ := is.has claimant mem
    exact List.mem_toFinset.mpr (List.mem_map.mpr ⟨_, mem_of_owner? owned, rfl⟩)
  have length : (m.pairs.map Prod.snd).length = placed.card := by
    rw [List.length_map, is.count]
  have same : (m.pairs.map Prod.snd).toFinset = placed := by
    refine (Finset.eq_of_subset_of_card_le subset ?_).symm
    exact length ▸ List.toFinset_card_le _
  refine ⟨?_, same⟩
  rw [← Multiset.coe_nodup, ← Multiset.toFinset_card_eq_card_iff_nodup]
  show (m.pairs.map Prod.snd).toFinset.card = (m.pairs.map Prod.snd).length
  rw [same, length]

theorem mem_of_owner? (is : m.Placed candidates placed) {target claimant : Nat}
    (owned : m.owner? target = some claimant) : claimant ∈ placed := by
  rw [← is.owners.2, List.mem_toFinset]
  exact List.mem_map.mpr ⟨_, Matching.mem_of_owner? owned, rfl⟩

theorem target_unique (is : m.Placed candidates placed) {t t' claimant : Nat}
    (owned : m.owner? t = some claimant) (owned' : m.owner? t' = some claimant) : t = t' := by
  have same := List.inj_on_of_nodup_map is.owners.1 (Matching.mem_of_owner? owned)
    (Matching.mem_of_owner? owned') rfl
  exact congrArg Prod.fst same

end Placed

/-! ## One more pair -/

theorem length_give_of_free {target : Nat} (free : m.owner? target = none) (claimant : Nat) :
    (m.give target claimant).pairs.length = m.pairs.length + 1 := by
  have all : m.pairs.filter (fun pair => pair.1 != target) = m.pairs := by
    rw [List.filter_eq_self]
    intro pair mem
    rw [bne_comm]
    exact List.lookup_eq_none_iff.mp free pair mem
  rw [give, List.length_cons, all]

theorem length_give_of_owned (valid : m.Valid candidates) {target other : Nat}
    (owned : m.owner? target = some other) (claimant : Nat) :
    (m.give target claimant).pairs.length = m.pairs.length := by
  have mem : target ∈ m.pairs.map Prod.fst := List.mem_map.mpr ⟨_, mem_of_owner? owned, rfl⟩
  have others : (m.pairs.filter fun pair => pair.1 != target).length =
      ((m.pairs.map Prod.fst).erase target).length := by
    rw [valid.distinct.erase_eq_filter, List.filter_map, List.length_map]
    rfl
  have positive := List.length_pos_of_mem mem
  rw [List.length_map] at positive
  rw [give, List.length_cons, others, List.length_erase_of_mem mem, List.length_map]
  omega

/-- A search moves owners to other targets, and adds a single pair. -/
theorem search_length (valid : m.Valid candidates) {depth claimant : Nat} {rest tried : List Nat}
    (edges : ∀ target ∈ rest, target ∈ candidates claimant) {m' : Matching}
    (found : search candidates m depth claimant rest tried = .found m') :
    m'.pairs.length = m.pairs.length + 1 := by
  fun_induction search candidates m depth claimant rest tried generalizing m' with
  | case1 => cases found
  | case2 depth claimant target rest tried _ ih =>
    exact ih (fun t mem => edges t (List.mem_cons_of_mem target mem)) found
  | case3 depth claimant target rest tried fresh free =>
    cases found
    exact length_give_of_free free claimant
  | case4 claimant target rest tried fresh other owned ih =>
    exact ih (fun t mem => edges t (List.mem_cons_of_mem target mem)) found
  | case5 claimant target rest tried fresh other depth owned m₁ inner ih =>
    cases found
    have moved : Augments candidates m other (target :: tried) m₁ := by
      have sound := search_sound valid depth other (candidates other) (target :: tried)
        fun _ mem => mem
      rwa [inner] at sound
    have still : m₁.owner? target = some other :=
      (moved.untouched target List.mem_cons_self).trans owned
    rw [length_give_of_owned moved.valid still]
    exact ih (fun t mem => mem) inner
  | case6 claimant target rest tried fresh other depth owned tried' vain ih ih' =>
    exact ih' (fun t mem => edges t (List.mem_cons_of_mem target mem)) found

theorem search_of_extend {claimant : Nat} {m' : Matching}
    (found : extend candidates m claimant = some m') :
    search candidates m m.pairs.length claimant (candidates claimant) [] = .found m' := by
  rw [extend] at found
  split at found
  next m'' eq =>
    cases found
    exact eq
  next => cases found

theorem Placed.extend {placed : Finset Nat} (is : m.Placed candidates placed) {claimant : Nat}
    (fresh : claimant ∉ placed) {m' : Matching}
    (found : Matching.extend candidates m claimant = some m') :
    m'.Placed candidates (insert claimant placed) := by
  have augments := extend_augments is.valid found
  refine ⟨augments.valid, ?_, ?_⟩
  · intro c mem
    rcases Finset.mem_insert.mp mem with rfl | earlier
    · obtain ⟨target, -, owned⟩ := augments.gained
      exact ⟨target, owned⟩
    · exact augments.kept c (is.has c earlier)
  · rw [search_length is.valid (fun _ mem => mem) (search_of_extend found), is.count,
      Finset.card_insert_of_notMem fresh]

/-! ## Alternating paths -/

/-- The claimants on alternating paths from `start`. -/
inductive Alternating (candidates : Nat → List Nat) (m : Matching) (start : Nat) : Nat → Prop
  | start : Alternating candidates m start start
  | step {claimant target other : Nat} (reached : Alternating candidates m start claimant)
      (candidate : target ∈ candidates claimant) (owned : m.owner? target = some other) :
      Alternating candidates m start other

/-- Claimants with targets of their own: all candidates of the claimants are
    among the targets, and all targets are owned by them. -/
structure Stuck (candidates : Nat → List Nat) (m : Matching) (claimants targets : Finset Nat) :
    Prop where
  listed : ∀ c ∈ claimants, ∀ t ∈ candidates c, t ∈ targets
  owned : ∀ t ∈ targets, ∃ c ∈ claimants, m.owner? t = some c

/-- What has been tried in vain.  The owners of the targets that are new have
    been reached and have tried all of their candidates. -/
structure Exhausted (candidates : Nat → List Nat) (m : Matching) (start : Nat)
    (rest tried tried' : List Nat) : Prop where
  distinct : tried'.Nodup
  longer : tried.length ≤ tried'.length
  kept : ∀ t ∈ tried, t ∈ tried'
  listed : ∀ t ∈ rest, t ∈ tried'
  closed : ∀ t ∈ tried', t ∈ tried ∨ ∃ other, m.owner? t = some other ∧
    Alternating candidates m start other ∧ ∀ t' ∈ candidates other, t' ∈ tried'

namespace Exhausted

variable {start : Nat} {rest tried tried' : List Nat}

/-- Whatever has been tried has an owner. -/
theorem taken (is : Exhausted candidates m start rest tried tried')
    (before : ∀ t ∈ tried, ∃ other, m.owner? t = some other) :
    ∀ t ∈ tried', ∃ other, m.owner? t = some other := by
  intro t ht
  rcases is.closed t ht with ht | ⟨other, owned, -⟩
  · exact before t ht
  · exact ⟨other, owned⟩

/-- A candidate that has been tried before is passed over. -/
theorem skip {target : Nat} (is : Exhausted candidates m start rest tried tried')
    (mem : target ∈ tried) : Exhausted candidates m start (target :: rest) tried tried' := by
  refine ⟨is.distinct, is.longer, is.kept, ?_, is.closed⟩
  intro t ht
  rcases List.mem_cons.mp ht with rfl | ht
  · exact is.kept t mem
  · exact is.listed t ht

/-- A candidate whose owner has tried all of its own in vain, and then the rest. -/
theorem next {target other : Nat} {tried₁ : List Nat}
    (inner : Exhausted candidates m start (candidates other) (target :: tried) tried₁)
    (owned : m.owner? target = some other) (reached : Alternating candidates m start other)
    (later : Exhausted candidates m start rest tried₁ tried') :
    Exhausted candidates m start (target :: rest) tried tried' := by
  have longer := inner.longer
  rw [List.length_cons] at longer
  refine ⟨later.distinct, by have := later.longer; omega, ?_, ?_, ?_⟩
  · exact fun t ht => later.kept t (inner.kept t (List.mem_cons_of_mem target ht))
  · intro t ht
    rcases List.mem_cons.mp ht with rfl | ht
    · exact later.kept t (inner.kept t List.mem_cons_self)
    · exact later.listed t ht
  · intro t ht
    have done : ∀ {c : Nat}, (∀ t' ∈ candidates c, t' ∈ tried₁) → ∀ t' ∈ candidates c, t' ∈ tried' :=
      fun all t' mem => later.kept t' (all t' mem)
    rcases later.closed t ht with ht | closed
    · rcases inner.closed t ht with ht | ⟨c, owns, path, all⟩
      · rcases List.mem_cons.mp ht with rfl | ht
        · exact Or.inr ⟨other, owned, reached, done inner.listed⟩
        · exact Or.inl ht
      · exact Or.inr ⟨c, owns, path, done all⟩
    · exact Or.inr closed

end Exhausted

/-- Each move of an owner comes with a target that has been tried, so a search
    that may move as many owners as there are pairs ends only when all
    candidates have been tried. -/
theorem search_exhausted (start : Nat) {depth claimant : Nat} {rest tried tried' : List Nat}
    (reached : Alternating candidates m start claimant)
    (edges : ∀ target ∈ rest, target ∈ candidates claimant) (distinct : tried.Nodup)
    (taken : ∀ t ∈ tried, ∃ other, m.owner? t = some other)
    (enough : m.pairs.length ≤ depth + tried.length)
    (vain : search candidates m depth claimant rest tried = .blocked tried') :
    Exhausted candidates m start rest tried tried' := by
  fun_induction search candidates m depth claimant rest tried generalizing tried' with
  | case1 depth claimant tried =>
    cases vain
    exact ⟨distinct, le_rfl, fun _ => id, by simp, fun _ => Or.inl⟩
  | case2 depth claimant target rest tried mem ih =>
    have later := ih reached (fun t mem => edges t (List.mem_cons_of_mem target mem)) distinct
      taken enough vain
    exact later.skip mem
  | case3 => cases vain
  | case4 claimant target rest tried fresh other owned ih =>
    -- the tried targets and this one are owned, which is more than there are pairs
    have distinct' : (target :: tried).Nodup := List.nodup_cons.mpr ⟨fresh, distinct⟩
    have owned' : target :: tried ⊆ m.pairs.map Prod.fst := by
      intro t ht
      obtain ⟨c, owns⟩ : ∃ c, m.owner? t = some c := by
        rcases List.mem_cons.mp ht with rfl | ht
        · exact ⟨other, owned⟩
        · exact taken t ht
      exact List.mem_map.mpr ⟨_, mem_of_owner? owns, rfl⟩
    have most := distinct'.length_le_of_subset owned'
    rw [List.length_cons, List.length_map] at most
    omega
  | case5 => cases vain
  | case6 claimant target rest tried fresh other depth owned tried₁ blocked ih ih' =>
    have reached' := Alternating.step reached (edges target List.mem_cons_self) owned
    have taken' : ∀ t ∈ target :: tried, ∃ other, m.owner? t = some other := by
      intro t ht
      rcases List.mem_cons.mp ht with rfl | ht
      · exact ⟨other, owned⟩
      · exact taken t ht
    have inner := ih reached' (fun t mem => mem) (List.nodup_cons.mpr ⟨fresh, distinct⟩) taken'
      (by rw [List.length_cons]; omega) blocked
    have longer := inner.longer
    rw [List.length_cons] at longer
    have later := ih' reached (fun t mem => edges t (List.mem_cons_of_mem target mem))
      inner.distinct (inner.taken taken') (by omega) vain
    exact inner.next owned reached' later

/-- A search in vain has reached all claimants on alternating paths, and they are
    stuck. -/
theorem exists_stuck {start : Nat} (vain : extend candidates m start = none) :
    ∃ reached targets : Finset Nat, (∀ c, c ∈ reached ↔ Alternating candidates m start c) ∧
      m.Stuck candidates reached targets := by
  obtain ⟨tried, blocked⟩ : ∃ tried,
      search candidates m m.pairs.length start (candidates start) [] = .blocked tried := by
    rw [extend] at vain
    split at vain
    next => cases vain
    next tried eq => exact ⟨tried, eq⟩
  -- a search that fails has tried every target it could reach, and each of them has an owner
  have all := search_exhausted start Alternating.start (fun _ mem => mem) List.nodup_nil
    (by simp) (Nat.le_add_right _ _) blocked
  have closed : ∀ t ∈ tried, ∃ other, m.owner? t = some other ∧
      Alternating candidates m start other ∧ ∀ t' ∈ candidates other, t' ∈ tried := by
    intro t ht
    rcases all.closed t ht with none | done
    · cases none
    · exact done
  -- so the reached claimants are `start` and the owners of what was tried
  have mem : ∀ c, Alternating candidates m start c ↔
      c ∈ insert start (tried.toFinset.image fun t => (m.owner? t).getD start) := by
    intro c
    rw [Finset.mem_insert, Finset.mem_image]
    constructor
    · intro path
      induction path with
      | start => exact Or.inl rfl
      | @step claimant target other path candidate owned ih =>
        have ht : target ∈ tried := by
          rcases ih with rfl | ⟨t, ht, rfl⟩
          · exact all.listed target candidate
          · obtain ⟨other', owned', -, listed⟩ := closed t (List.mem_toFinset.mp ht)
            rw [owned', Option.getD_some] at candidate
            exact listed target candidate
        exact Or.inr ⟨target, List.mem_toFinset.mpr ht, by rw [owned, Option.getD_some]⟩
    · rintro (rfl | ⟨t, ht, rfl⟩)
      · exact Alternating.start
      · obtain ⟨other, owned, path, -⟩ := closed t (List.mem_toFinset.mp ht)
        rwa [owned, Option.getD_some]
  refine ⟨_, tried.toFinset, fun c => (mem c).symm, ?_, ?_⟩
  · intro c hc t candidate
    rw [List.mem_toFinset]
    rcases Finset.mem_insert.mp hc with rfl | hc
    · exact all.listed t candidate
    · obtain ⟨t', ht', rfl⟩ := Finset.mem_image.mp hc
      obtain ⟨other, owned, -, listed⟩ := closed t' (List.mem_toFinset.mp ht')
      rw [owned, Option.getD_some] at candidate
      exact listed t candidate
  · intro t ht
    obtain ⟨other, owned, path, -⟩ := closed t (List.mem_toFinset.mp ht)
    exact ⟨other, (mem other).mp path, owned⟩

namespace Stuck

variable {claimants targets claimants' targets' : Finset Nat}

theorem union (stuck : m.Stuck candidates claimants targets)
    (stuck' : m.Stuck candidates claimants' targets') :
    m.Stuck candidates (claimants ∪ claimants') (targets ∪ targets') := by
  refine ⟨?_, ?_⟩
  · intro c hc t ht
    rw [Finset.mem_union]
    rcases Finset.mem_union.mp hc with hc | hc
    · exact Or.inl (stuck.listed c hc t ht)
    · exact Or.inr (stuck'.listed c hc t ht)
  · intro t ht
    rcases Finset.mem_union.mp ht with ht | ht
    · obtain ⟨c, hc, owned⟩ := stuck.owned t ht
      exact ⟨c, Finset.mem_union_left _ hc, owned⟩
    · obtain ⟨c, hc, owned⟩ := stuck'.owned t ht
      exact ⟨c, Finset.mem_union_right _ hc, owned⟩

/-- A search that succeeds does not come from stuck claimants, and does not
    touch their targets. -/
theorem search_avoids (stuck : m.Stuck candidates claimants targets) {depth claimant : Nat}
    {rest tried : List Nat} (edges : ∀ target ∈ rest, target ∈ candidates claimant)
    {m' : Matching} (found : search candidates m depth claimant rest tried = .found m') :
    claimant ∉ claimants ∧ ∀ t ∈ targets, m'.owner? t = m.owner? t := by
  -- a target that is free or can be given away is none of theirs
  have outside : ∀ {claimant target : Nat} {rest : List Nat} {m₁ : Matching},
      (∀ t ∈ target :: rest, t ∈ candidates claimant) → target ∉ targets →
      (∀ t ∈ targets, m₁.owner? t = m.owner? t) →
      claimant ∉ claimants ∧ ∀ t ∈ targets, (m₁.give target claimant).owner? t = m.owner? t := by
    intro claimant target rest m₁ edges out same
    refine ⟨fun mem => out (stuck.listed claimant mem target (edges target List.mem_cons_self)), ?_⟩
    intro t ht
    have other : t ≠ target := by
      rintro rfl
      exact out ht
    rw [owner?_give, if_neg other, same t ht]
  fun_induction search candidates m depth claimant rest tried generalizing m' with
  | case1 => cases found
  | case2 depth claimant target rest tried _ ih =>
    exact ih (fun t mem => edges t (List.mem_cons_of_mem target mem)) found
  | case3 depth claimant target rest tried fresh free =>
    cases found
    refine outside edges ?_ fun t _ => rfl
    intro ht
    obtain ⟨c, -, owned⟩ := stuck.owned target ht
    rw [free] at owned
    cases owned
  | case4 claimant target rest tried fresh other owned ih =>
    exact ih (fun t mem => edges t (List.mem_cons_of_mem target mem)) found
  | case5 claimant target rest tried fresh other depth owned m₁ inner ih =>
    cases found
    obtain ⟨free, same⟩ := ih (fun t mem => mem) inner
    refine outside edges ?_ same
    intro ht
    obtain ⟨c, hc, owned'⟩ := stuck.owned target ht
    rw [owned] at owned'
    cases owned'
    exact free hc
  | case6 claimant target rest tried fresh other depth owned tried' vain ih ih' =>
    exact ih' (fun t mem => edges t (List.mem_cons_of_mem target mem)) found

/-- Stuck claimants stay stuck. -/
theorem extend (stuck : m.Stuck candidates claimants targets) {claimant : Nat} {m' : Matching}
    (found : Matching.extend candidates m claimant = some m') :
    m'.Stuck candidates claimants targets := by
  obtain ⟨-, same⟩ := stuck.search_avoids (fun _ mem => mem) (search_of_extend found)
  refine ⟨stuck.listed, ?_⟩
  intro t ht
  obtain ⟨c, hc, owned⟩ := stuck.owned t ht
  exact ⟨c, hc, (same t ht).trans owned⟩

/-- Each target of stuck claimants places one of them. -/
theorem card_targets_le (stuck : m.Stuck candidates claimants targets) {placed : Finset Nat}
    (is : m.Placed candidates placed) : targets.card ≤ (claimants ∩ placed).card := by
  choose! owner mem owned using stuck.owned
  refine Finset.card_le_card_of_injOn owner ?_ ?_
  · intro t ht
    rw [Finset.mem_coe, Finset.mem_inter]
    exact ⟨mem t ht, is.mem_of_owner? (owned t ht)⟩
  · intro t ht t' ht' same
    have owned' := owned t' ht'
    rw [← same] at owned'
    exact is.target_unique (owned t ht) owned'

end Stuck

/-- If a search for a claimant that has not been placed is in vain, the claimants
    on alternating paths have fewer candidates together than they are. -/
theorem Placed.exists_deficient {placed : Finset Nat} (is : m.Placed candidates placed)
    {start : Nat} (fresh : start ∉ placed) (vain : Matching.extend candidates m start = none) :
    ∃ reached : Finset Nat, (∀ c, c ∈ reached ↔ Alternating candidates m start c) ∧
      (reached.biUnion fun c => (candidates c).toFinset).card < reached.card := by
  obtain ⟨reached, targets, mem, stuck⟩ := exists_stuck vain
  refine ⟨reached, mem, ?_⟩
  have listed : (reached.biUnion fun c => (candidates c).toFinset) ⊆ targets := by
    intro t ht
    obtain ⟨c, hc, ht⟩ := Finset.mem_biUnion.mp ht
    exact stuck.listed c hc t (List.mem_toFinset.mp ht)
  have fewer : (reached ∩ placed).card < reached.card := by
    refine Finset.card_lt_card ⟨Finset.inter_subset_left, ?_⟩
    intro all
    exact fresh (Finset.mem_inter.mp (all ((mem start).mpr Alternating.start))).2
  calc (reached.biUnion fun c => (candidates c).toFinset).card
      ≤ targets.card := Finset.card_le_card listed
    _ ≤ (reached ∩ placed).card := stuck.card_targets_le is
    _ < reached.card := fewer

/-! ## Complete matchings -/

theorem complete_succ_eq_error {count claimant : Nat} :
    complete candidates (count + 1) = .error claimant ↔ complete candidates count = .error claimant ∨
      ∃ m, complete candidates count = .ok m ∧ extend candidates m count = none ∧
        claimant = count := by
  simp only [complete, List.range_succ, List.foldlM_append, List.foldlM_cons, List.foldlM_nil]
  generalize List.foldlM (m := Except Nat) _ empty (List.range count) = before
  cases before with
  | error c => simp [bind, Except.bind]
  | ok m₀ =>
    cases found : extend candidates m₀ count <;>
      simp [bind, Except.bind, pure, Except.pure, found, eq_comm]

/-- A complete matching places all claimants. -/
theorem complete_placed {count : Nat} {m : Matching} (found : complete candidates count = .ok m) :
    m.Placed candidates (Finset.range count) := by
  induction count generalizing m with
  | zero =>
    cases found
    exact placed_empty
  | succ count ih =>
    obtain ⟨m₀, before, last⟩ := complete_succ_eq_ok.mp found
    rw [Finset.range_add_one]
    exact (ih before).extend Finset.notMem_range_self last

/-- Without a complete matching, some claimant cannot be placed besides those
    before. -/
theorem complete_error {count claimant : Nat} (failed : complete candidates count = .error claimant) :
    claimant < count ∧ ∃ m, complete candidates claimant = .ok m ∧
      extend candidates m claimant = none := by
  induction count with
  | zero => cases failed
  | succ count ih =>
    rcases complete_succ_eq_error.mp failed with earlier | ⟨m, before, vain, rfl⟩
    · obtain ⟨lt, rest⟩ := ih earlier
      exact ⟨by omega, rest⟩
    · exact ⟨by omega, m, before, vain⟩

/-! ## Largest matchings -/

/-- Targets with claimants, where none of them occurs twice. -/
structure Pairing (allowed : Nat → Nat → Prop) (pairs : Finset (Nat × Nat)) : Prop where
  edges : ∀ p ∈ pairs, allowed p.2 p.1
  targets : Set.InjOn Prod.fst (pairs : Set (Nat × Nat))
  claimants : Set.InjOn Prod.snd (pairs : Set (Nat × Nat))

/-- A pairing that no other one exceeds. -/
structure Maximum (allowed : Nat → Nat → Prop) (pairs : Finset (Nat × Nat)) : Prop where
  pairing : Pairing allowed pairs
  most : ∀ other, Pairing allowed other → other.card ≤ pairs.card

/-- Targets and claimants that cover all pairs bound their number. -/
theorem Pairing.card_le {allowed : Nat → Nat → Prop} {pairs : Finset (Nat × Nat)}
    (pairing : Pairing allowed pairs) {targets claimants : Finset Nat}
    (cover : ∀ p ∈ pairs, p.1 ∈ targets ∨ p.2 ∈ claimants) :
    pairs.card ≤ targets.card + claimants.card := by
  have split := Finset.card_filter_add_card_filter_not (s := pairs) fun p => p.1 ∈ targets
  have first : (pairs.filter fun p => p.1 ∈ targets).card ≤ targets.card := by
    refine Finset.card_le_card_of_injOn Prod.fst ?_ ?_
    · intro p hp
      exact (Finset.mem_filter.mp hp).2
    · exact pairing.targets.mono (Finset.coe_subset.mpr (Finset.filter_subset _ _))
  have second : (pairs.filter fun p => ¬ p.1 ∈ targets).card ≤ claimants.card := by
    refine Finset.card_le_card_of_injOn Prod.snd ?_ ?_
    · intro p hp
      obtain ⟨mem, out⟩ := Finset.mem_filter.mp hp
      exact (cover p mem).resolve_left out
    · exact pairing.claimants.mono (Finset.coe_subset.mpr (Finset.filter_subset _ _))
  omega

/-- Claimants that have been dealt with one after the other: those that are left
    out are stuck. -/
structure Saturated (candidates : Nat → List Nat) (count : Nat) (m : Matching)
    (placed claimants targets : Finset Nat) : Prop where
  isPlaced : m.Placed candidates placed
  stuck : m.Stuck candidates claimants targets
  placed_lt : ∀ c ∈ placed, c < count
  stuck_lt : ∀ c ∈ claimants, c < count
  all : ∀ c < count, c ∈ placed ∨ c ∈ claimants

theorem greedy_succ (count : Nat) :
    greedy candidates (count + 1) =
      (extend candidates (greedy candidates count) count).getD (greedy candidates count) := by
  simp only [greedy, List.range_succ, List.foldl_append, List.foldl_cons, List.foldl_nil]

theorem greedy_saturated (candidates : Nat → List Nat) (count : Nat) :
    ∃ placed claimants targets,
      (greedy candidates count).Saturated candidates count placed claimants targets := by
  -- induction on the claimants seen so far: one that finds a path joins the placed ones, one that
  -- finds none brings its whole alternating component into the stuck set
  induction count with
  | zero => exact ⟨∅, ∅, ∅, placed_empty, ⟨by simp, by simp⟩, by simp, by simp, by simp⟩
  | succ count ih =>
    obtain ⟨placed, claimants, targets, is⟩ := ih
    have fresh : count ∉ placed := fun mem => Nat.lt_irrefl count (is.placed_lt count mem)
    rw [greedy_succ]
    cases found : extend candidates (greedy candidates count) count with
    | some m' =>
      refine ⟨insert count placed, claimants, targets, is.isPlaced.extend fresh found,
        is.stuck.extend found, ?_, ?_, ?_⟩
      · intro c mem
        rcases Finset.mem_insert.mp mem with rfl | mem
        · exact Nat.lt_succ_self c
        · exact Nat.lt_succ_of_lt (is.placed_lt c mem)
      · exact fun c mem => Nat.lt_succ_of_lt (is.stuck_lt c mem)
      · intro c lt
        by_cases last : c = count
        · exact Or.inl (Finset.mem_insert.mpr (Or.inl last))
        · rcases is.all c (by omega) with mem | mem
          · exact Or.inl (Finset.mem_insert_of_mem mem)
          · exact Or.inr mem
    | none =>
      obtain ⟨reached, targets', mem, stuck⟩ := exists_stuck found
      refine ⟨placed, claimants ∪ reached, targets ∪ targets', is.isPlaced, is.stuck.union stuck,
        ?_, ?_, ?_⟩
      · exact fun c mem => Nat.lt_succ_of_lt (is.placed_lt c mem)
      · intro c hc
        rcases Finset.mem_union.mp hc with hc | hc
        · exact Nat.lt_succ_of_lt (is.stuck_lt c hc)
        · cases (mem c).mp hc with
          | start => exact Nat.lt_succ_self count
          | step _ _ owned => exact Nat.lt_succ_of_lt (is.placed_lt c (is.isPlaced.mem_of_owner? owned))
      · intro c lt
        by_cases last : c = count
        · rw [last]
          exact Or.inr (Finset.mem_union_right _ ((mem count).mpr Alternating.start))
        · rcases is.all c (by omega) with hc | hc
          · exact Or.inl hc
          · exact Or.inr (Finset.mem_union_left _ hc)

/-- Claimants that are placed one after the other, without a second attempt, make
    a largest pairing. -/
theorem greedy_maximum (candidates : Nat → List Nat) (count : Nat) :
    Maximum (fun c t => c < count ∧ t ∈ candidates c)
      (greedy candidates count).pairs.toFinset := by
  obtain ⟨placed, claimants, targets, is⟩ := greedy_saturated candidates count
  generalize greedy candidates count = m at is
  have distinct := is.isPlaced.valid.distinct
  have size : m.pairs.toFinset.card = placed.card := by
    rw [List.toFinset_card_of_nodup (List.Nodup.of_map _ distinct), is.isPlaced.count]
  refine ⟨⟨?_, ?_, ?_⟩, ?_⟩
  · intro p mem
    have owned := owner?_of_mem is.isPlaced.valid (List.mem_toFinset.mp mem)
    exact ⟨is.placed_lt _ (is.isPlaced.mem_of_owner? owned), is.isPlaced.valid.edges _ _ owned⟩
  · intro p hp p' hp' same
    exact List.inj_on_of_nodup_map distinct (List.mem_toFinset.mp hp) (List.mem_toFinset.mp hp') same
  · intro p hp p' hp' same
    exact List.inj_on_of_nodup_map is.isPlaced.owners.1 (List.mem_toFinset.mp hp)
      (List.mem_toFinset.mp hp') same
  · intro other pairing
    -- the targets of the stuck claimants and all other claimants cover every candidate
    have cover : ∀ p ∈ other, p.1 ∈ targets ∨ p.2 ∈ placed \ claimants := by
      intro p mem
      obtain ⟨lt, candidate⟩ := pairing.edges p mem
      by_cases hc : p.2 ∈ claimants
      · exact Or.inl (is.stuck.listed p.2 hc p.1 candidate)
      · rcases is.all p.2 lt with placed | stuck
        · exact Or.inr (Finset.mem_sdiff.mpr ⟨placed, hc⟩)
        · exact absurd stuck hc
    have bound := pairing.card_le cover
    have inside := is.stuck.card_targets_le is.isPlaced
    have split := Finset.card_inter_add_card_sdiff placed claimants
    rw [Finset.inter_comm] at split
    omega

end Matching

end JetForm
