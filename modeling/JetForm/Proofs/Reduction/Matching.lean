import JetForm.Reduction.Matching
import Mathlib.Tactic.Common

/-! # What a matching keeps

    Every owner has one of its candidates: this is the invariant of matchings.
    A search moves owners about while some targets are being tried.  It does not
    touch those, takes nothing away from a claimant without giving it another
    target, and ends with the new claimant in possession of a target that has not
    been tried: `Augments`. -/

namespace JetForm

namespace Matching

/-- Does a claimant have a target? -/
def Has (m : Matching) (claimant : Nat) : Prop :=
  ∃ target, m.owner? target = some claimant

variable {m : Matching} {candidates : Nat → List Nat}

theorem owner?_give (target claimant t : Nat) :
    (m.give target claimant).owner? t = if t = target then some claimant else m.owner? t := by
  have others : ∀ pairs : List (Nat × Nat), t ≠ target →
      (pairs.filter fun pair => pair.1 != target).lookup t = pairs.lookup t := by
    intro pairs other
    induction pairs with
    | nil => rfl
    | cons pair pairs ih =>
      obtain ⟨t', c⟩ := pair
      by_cases same : t' = target
      · rw [List.filter_cons_of_neg (by simp [same]), ih, same, List.lookup_cons,
          beq_false_of_ne other]
      · rw [List.filter_cons_of_pos (by simp [same]), List.lookup_cons, List.lookup_cons, ih]
  rw [owner?, give, List.lookup_cons]
  by_cases same : t = target
  · simp [same]
  · rw [if_neg same, beq_false_of_ne same]
    exact others m.pairs same

/-- The invariant: no target is listed twice, and owners have what they may
    have. -/
structure Valid (candidates : Nat → List Nat) (m : Matching) : Prop where
  distinct : (m.pairs.map Prod.fst).Nodup
  edges : ∀ target claimant, m.owner? target = some claimant → target ∈ candidates claimant

theorem valid_empty : empty.Valid candidates := by
  refine ⟨List.nodup_nil, ?_⟩
  intro target claimant owned
  cases owned

theorem Valid.give (valid : m.Valid candidates) {target claimant : Nat}
    (edge : target ∈ candidates claimant) : (m.give target claimant).Valid candidates := by
  refine ⟨?_, ?_⟩
  · rw [Matching.give, List.map_cons, List.nodup_cons]
    refine ⟨by simp, ?_⟩
    exact valid.distinct.sublist (List.filter_sublist.map Prod.fst)
  · intro t c owned
    rw [owner?_give] at owned
    split at owned
    next same =>
      cases owned
      exact same ▸ edge
    next => exact valid.edges t c owned

/-- What a successful search does for a new claimant while `tried` must not be
    touched. -/
structure Augments (candidates : Nat → List Nat) (m : Matching) (claimant : Nat)
    (tried : List Nat) (m' : Matching) : Prop where
  valid : m'.Valid candidates
  gained : ∃ target, target ∉ tried ∧ m'.owner? target = some claimant
  untouched : ∀ target ∈ tried, m'.owner? target = m.owner? target
  kept : ∀ other, m.Has other → m'.Has other

/-- A search leaves alone what it was told to, and has tried that at least when
    it ends in vain. -/
def Outcome.Sound (candidates : Nat → List Nat) (m : Matching) (claimant : Nat)
    (tried : List Nat) : Outcome → Prop
  | .found m' => Augments candidates m claimant tried m'
  | .blocked tried' => tried ⊆ tried'

/-- What holds with more targets tried holds with fewer. -/
theorem Outcome.Sound.anti {claimant : Nat} {tried tried' : List Nat} {outcome : Outcome}
    (sound : outcome.Sound candidates m claimant tried') (more : tried ⊆ tried') :
    outcome.Sound candidates m claimant tried := by
  cases outcome with
  | blocked tried'' => exact List.Subset.trans more sound
  | found m' =>
    obtain ⟨target, fresh, owned⟩ := sound.gained
    exact ⟨sound.valid, ⟨target, fun mem => fresh (more mem), owned⟩,
      fun t mem => sound.untouched t (more mem), sound.kept⟩

/-- A free target is taken. -/
theorem augments_free (valid : m.Valid candidates) {target claimant : Nat} {tried : List Nat}
    (edge : target ∈ candidates claimant) (fresh : target ∉ tried)
    (free : m.owner? target = none) :
    Augments candidates m claimant tried (m.give target claimant) := by
  refine ⟨valid.give edge, ⟨target, fresh, by simp [owner?_give]⟩, ?_, ?_⟩
  · intro t mem
    rw [owner?_give, if_neg]
    rintro rfl
    exact fresh mem
  · rintro other ⟨t, owned⟩
    refine ⟨t, ?_⟩
    rw [owner?_give, if_neg, owned]
    rintro rfl
    rw [free] at owned
    cases owned

/-- A target is taken from an owner that has found another one. -/
theorem Augments.take {m' : Matching} {target claimant other : Nat} {tried : List Nat}
    (moved : Augments candidates m other (target :: tried) m')
    (edge : target ∈ candidates claimant) (fresh : target ∉ tried)
    (owned : m.owner? target = some other) :
    Augments candidates m claimant tried (m'.give target claimant) := by
  refine ⟨moved.valid.give edge, ⟨target, fresh, by simp [owner?_give]⟩, ?_, ?_⟩
  · intro t mem
    rw [owner?_give, if_neg]
    · exact moved.untouched t (List.mem_cons_of_mem target mem)
    · rintro rfl
      exact fresh mem
  · intro c has
    obtain ⟨t, owns⟩ : ∃ t, t ≠ target ∧ m'.owner? t = some c := by
      by_cases same : c = other
      · obtain ⟨t, untried, gained⟩ := moved.gained
        exact ⟨t, fun eq => untried (eq ▸ List.mem_cons_self), same ▸ gained⟩
      · obtain ⟨t, owns⟩ := moved.kept c has
        refine ⟨t, ?_, owns⟩
        rintro rfl
        rw [moved.untouched t List.mem_cons_self, owned] at owns
        exact same (Option.some.inj owns).symm
    exact ⟨t, by rw [owner?_give, if_neg owns.1, owns.2]⟩

theorem search_sound (valid : m.Valid candidates) (depth claimant : Nat) (rest tried : List Nat)
    (edges : ∀ target ∈ rest, target ∈ candidates claimant) :
    (search candidates m depth claimant rest tried).Sound candidates m claimant tried := by
  fun_induction search candidates m depth claimant rest tried with
  | case1 => exact List.Subset.refl _
  | case2 depth claimant target rest tried _ ih =>
    exact ih fun t mem => edges t (List.mem_cons_of_mem target mem)
  | case3 depth claimant target rest tried fresh free =>
    exact augments_free valid (edges target List.mem_cons_self) fresh free
  | case4 claimant target rest tried fresh other owned ih =>
    exact (ih fun t mem => edges t (List.mem_cons_of_mem target mem)).anti
      (List.subset_cons_self target tried)
  | case5 claimant target rest tried fresh depth other owned m' found ih =>
    have moved := ih fun t mem => mem
    rw [found] at moved
    exact moved.take (edges target List.mem_cons_self) fresh owned
  | case6 claimant target rest tried fresh depth other owned tried' vain ih ih' =>
    have blocked := ih fun t mem => mem
    rw [vain] at blocked
    exact (ih' fun t mem => edges t (List.mem_cons_of_mem target mem)).anti
      (List.Subset.trans (List.subset_cons_self target tried) blocked)

theorem extend_augments (valid : m.Valid candidates) {claimant : Nat} {m' : Matching}
    (found : extend candidates m claimant = some m') :
    Augments candidates m claimant [] m' := by
  have sound := search_sound valid m.pairs.length claimant (candidates claimant) []
    fun _ mem => mem
  rw [extend] at found
  split at found
  next m'' eq =>
    cases found
    rwa [eq] at sound
  next => cases found

theorem valid_greedy (candidates : Nat → List Nat) (count : Nat) :
    (greedy candidates count).Valid candidates := by
  refine List.foldlRecOn (motive := Valid candidates) _ _ valid_empty ?_
  intro m valid claimant _
  cases found : extend candidates m claimant with
  | none => exact valid
  | some m' => exact (extend_augments valid found).valid

/-- One more claimant extends a complete matching. -/
theorem complete_succ_eq_ok {count : Nat} {m : Matching} :
    complete candidates (count + 1) = .ok m ↔
      ∃ m₀, complete candidates count = .ok m₀ ∧ extend candidates m₀ count = some m := by
  simp only [complete, List.range_succ, List.foldlM_append, List.foldlM_cons, List.foldlM_nil]
  generalize List.foldlM (m := Except Nat) _ empty (List.range count) = before
  cases before with
  | error c => simp [bind, Except.bind]
  | ok m₀ =>
    cases found : extend candidates m₀ count <;> simp [bind, Except.bind, pure, Except.pure, found]

/-- In a complete matching every claimant has one of its candidates. -/
theorem complete_valid {count : Nat} {m : Matching}
    (found : complete candidates count = .ok m) :
    m.Valid candidates ∧ ∀ claimant < count, m.Has claimant := by
  induction count generalizing m with
  | zero =>
    cases found
    exact ⟨valid_empty, fun _ lt => absurd lt (Nat.not_lt_zero _)⟩
  | succ count ih =>
    obtain ⟨m₀, before, last⟩ := complete_succ_eq_ok.mp found
    obtain ⟨valid, has⟩ := ih before
    have augments := extend_augments valid last
    refine ⟨augments.valid, fun claimant lt => ?_⟩
    rcases Nat.lt_succ_iff_lt_or_eq.mp lt with earlier | rfl
    · exact augments.kept claimant (has claimant earlier)
    · obtain ⟨target, -, owned⟩ := augments.gained
      exact ⟨target, owned⟩

/-! ## Targets of claimants -/

theorem owner?_of_mem (valid : m.Valid candidates) {target claimant : Nat}
    (mem : (target, claimant) ∈ m.pairs) : m.owner? target = some claimant := by
  have distinct := valid.distinct
  rw [owner?]
  generalize m.pairs = pairs at mem distinct
  induction pairs with
  | nil => cases mem
  | cons pair pairs ih =>
    obtain ⟨t, c⟩ := pair
    rw [List.map_cons, List.nodup_cons] at distinct
    rw [List.lookup_cons]
    rcases List.mem_cons.mp mem with eq | later
    · cases eq
      simp
    · have other : target ≠ t := by
        rintro rfl
        exact distinct.1 (List.mem_map.mpr ⟨_, later, rfl⟩)
      rw [beq_false_of_ne other]
      exact ih later distinct.2

/-- The target of a claimant is one that it owns. -/
theorem owner?_of_target? (valid : m.Valid candidates) {target claimant : Nat}
    (eq : m.target? claimant = some target) : m.owner? target = some claimant := by
  obtain ⟨⟨t, c⟩, found, rfl⟩ := Option.map_eq_some_iff.mp eq
  have same : c = claimant := by simpa using List.find?_some found
  exact owner?_of_mem valid (same ▸ List.mem_of_find?_eq_some found)

theorem target?_of_has {claimant : Nat} (has : m.Has claimant) :
    ∃ target, m.target? claimant = some target := by
  obtain ⟨target, owned⟩ := has
  obtain ⟨before, after, eq, -⟩ := List.lookup_eq_some_iff.mp owned
  rw [target?]
  cases found : m.pairs.find? fun pair => pair.2 == claimant with
  | some pair => exact ⟨pair.1, rfl⟩
  | none =>
    have none := List.find?_eq_none.mp found (target, claimant) (by simp [eq])
    simp at none

end Matching

end JetForm
