import Mathlib.Data.List.Sort
import JetForm.Proofs.Domain

/-! # Unions of domains

    Sorting points means sorting their ranks.  So a domain is determined by the set
    of its ranks, and the domains with two given ends are merged like these sets:
    in any order, in any grouping, and a domain with itself changes nothing.
    Domains with other ends cannot be merged. -/

namespace JetForm

namespace Domain

/-! ## Sorting invents no points -/

section

variable {K : Type} [LT K] [DecidableLT K] [BEq K]

theorem mem_of_mem_insertPoint {x y : K} {points : List K} (hy : y ∈ insertPoint x points) :
    y = x ∨ y ∈ points := by
  induction points with
  | nil => exact Or.inl (List.mem_singleton.mp hy)
  | cons z zs ih =>
    unfold insertPoint at hy
    split at hy
    · exact List.mem_cons.mp hy
    · split at hy
      · exact Or.inr hy
      · rcases List.mem_cons.mp hy with rfl | hy
        · exact Or.inr List.mem_cons_self
        · exact (ih hy).imp_right (List.mem_cons_of_mem z)

theorem mem_of_mem_sortPoints {y : K} {points : List K} (hy : y ∈ sortPoints points) :
    y ∈ points := by
  have fold : ∀ sorted : List K, y ∈ points.foldl (fun sorted x => insertPoint x sorted) sorted →
      y ∈ points ∨ y ∈ sorted := by
    clear hy
    induction points with
    | nil => exact fun sorted => Or.inr
    | cons x points ih =>
      intro sorted hy
      rcases ih (insertPoint x sorted) hy with hy | hy
      · exact Or.inl (List.mem_cons_of_mem x hy)
      · rcases mem_of_mem_insertPoint hy with rfl | hy
        · exact Or.inl List.mem_cons_self
        · exact Or.inr hy
  exact (fold [] hy).resolve_right List.not_mem_nil

end

/-! ## Domains that agree -/

section

variable {K : Type} [LT K] [LE K] [DecidableLE K] [BEq K] [Finiteness K]

/-- The domains have equal points. -/
def Agrees (d e : Domain K) : Prop :=
  (d.points == e.points) = true

/-- The domains have equal ends. -/
structure SameEnds (d e : Domain K) : Prop where
  left : (d.left == e.left) = true
  right : (d.right == e.right) = true

/-- The domain has the given points in increasing order, each once, and no others. -/
structure Consists (d : Domain K) (points : List K) : Prop where
  increasing : d.points.Pairwise (· < ·)
  contains : ∀ x, d.points.contains x = points.contains x

/-- Two attempts to merge domains come to the same: they give domains that agree, or both fail
    because ends differ. -/
inductive MergeAlike : Except (DomainError K) (Domain K) → Except (DomainError K) (Domain K) → Prop
  | ok {d e : Domain K} (agrees : d.Agrees e) : MergeAlike (.ok d) (.ok e)
  | differ (a b c d a' b' c' d' : K) :
    MergeAlike (.error (.endsDiffer a b c d)) (.error (.endsDiffer a' b' c' d'))

/-- The points make a domain with the ends of this one. -/
def Suits [DecidableLT K] (d : Domain K) (points : List K) : Prop :=
  ∃ e, create points = .ok e ∧ d.SameEnds e

/-- Why points cannot be merged with a domain: they make none, or one with other ends. -/
inductive Refuses [DecidableLT K] (d : Domain K) (points : List K) : DomainError K → Prop
  | invalid {cause : DomainError K} (failed : create points = .error cause) :
    Refuses d points cause
  | differ {e : Domain K} (a b : K) (created : create points = .ok e) (differ : ¬ d.SameEnds e) :
    Refuses d points (.endsDiffer a b e.left e.right)

theorem Refuses.not_suits [DecidableLT K] {d : Domain K} {points : List K} {cause : DomainError K}
    (refuses : d.Refuses points cause) : ¬ d.Suits points := by
  rintro ⟨e, created, same⟩
  cases refuses with
  | invalid failed => cases created.symm.trans failed
  | differ a b created' differ =>
    cases created.symm.trans created'
    exact differ same

/-- Domain `u` is what comes of merging domain `d` with the listed ones, all of which suit it. -/
structure Merged [DecidableLT K] (d : Domain K) (lists : List (List K)) (u : Domain K) : Prop where
  suit : ∀ points ∈ lists, d.Suits points
  ends : d.SameEnds u
  consists : u.Consists (d.points ++ lists.flatten)

/-- Unions of domains are unions of sets, as far as domains have the same ends. -/
structure UnionLaws (K : Type) [LT K] [LE K] [DecidableLE K] [DecidableLT K] [BEq K]
    [Finiteness K] : Prop where
  idempotent (d : Domain K) : d.union d = .ok d
  commutative (d e : Domain K) : MergeAlike (d.union e) (e.union d)
  associative (d e f : Domain K) :
    MergeAlike (d.union e >>= fun u => u.union f) (e.union f >>= fun u => d.union u)
  merges (d e : Domain K) (same : d.SameEnds e) :
    ∃ u, d.union e = .ok u ∧ u.Consists (d.points ++ e.points) ∧ u.SameEnds d
  refuses (d e : Domain K) (differ : ¬ d.SameEnds e) :
    d.union e = .error (.endsDiffer d.left d.right e.left e.right)

/-- The order in which domains are merged does not matter. -/
theorem Merged.perm [DecidableLT K] {d u : Domain K} {lists others : List (List K)}
    (merged : d.Merged lists u) (perm : lists.Perm others) : d.Merged others u where
  suit points listed := merged.suit points (perm.mem_iff.mpr listed)
  ends := merged.ends
  consists := by
    refine ⟨merged.consists.increasing, fun x => (merged.consists.contains x).trans ?_⟩
    rw [List.contains_append, List.contains_append]
    exact congrArg _ (perm.flatten.contains_eq)

end

/-! ## Ranks decide -/

namespace Ranked

variable {K L : Type} [LT K] [LE K] [BEq K] [Finiteness K] [LinearOrder L] {rank : K → L}
  (ranked : Ranked rank)
include ranked

theorem beq_iff {points others : List K} (finite : ∀ x ∈ points, Finiteness.isFinite x = true)
    (finite' : ∀ x ∈ others, Finiteness.isFinite x = true) :
    (points == others) = true ↔ points.map rank = others.map rank := by
  induction points generalizing others with
  | nil => cases others with
    | nil => exact ⟨fun _ => rfl, fun _ => rfl⟩
    | cons y ys => exact ⟨nofun, nofun⟩
  | cons x xs ih => cases others with
    | nil => exact ⟨nofun, nofun⟩
    | cons y ys =>
      have rest := ih (fun z hz => finite z (List.mem_cons_of_mem x hz)) fun z hz =>
        finite' z (List.mem_cons_of_mem y hz)
      rw [List.cons_beq_cons, Bool.and_eq_true, rest,
        ranked.beq x y (finite x List.mem_cons_self) (finite' y List.mem_cons_self), List.map_cons,
        List.map_cons, List.cons_eq_cons]

/-! ### Sorting -/

section

variable [DecidableLT K]

theorem map_insertPoint {x : K} {points : List K} (hx : Finiteness.isFinite x = true)
    (finite : ∀ y ∈ points, Finiteness.isFinite y = true) :
    (insertPoint x points).map rank = insertPoint (rank x) (points.map rank) := by
  induction points with
  | nil => rfl
  | cons y ys ih =>
    have hy := finite y List.mem_cons_self
    have rest := ih fun z hz => finite z (List.mem_cons_of_mem y hz)
    rw [insertPoint, List.map_cons, insertPoint]
    by_cases below : rank x < rank y
    · rw [if_pos ((ranked.lt x y hx hy).mpr below), if_pos below, List.map_cons, List.map_cons]
    · rw [if_neg fun h => below ((ranked.lt x y hx hy).mp h), if_neg below]
      -- in a linear order points are the same if they are equal
      have same : samePoint (rank x) (rank y) = true ↔ rank x = rank y := by
        simp [samePoint]
      by_cases equal : rank x = rank y
      · rw [if_pos ((ranked.samePoint_iff hx hy).mpr equal), if_pos (same.mpr equal), List.map_cons]
      · rw [if_neg fun h => equal ((ranked.samePoint_iff hx hy).mp h),
          if_neg fun h => equal (same.mp h), List.map_cons, rest]

theorem map_sortPoints {points : List K} (finite : ∀ x ∈ points, Finiteness.isFinite x = true) :
    (sortPoints points).map rank = sortPoints (points.map rank) := by
  have fold : ∀ sorted : List K, (∀ y ∈ sorted, Finiteness.isFinite y = true) →
      (points.foldl (fun sorted x => insertPoint x sorted) sorted).map rank =
        (points.map rank).foldl (fun sorted x => insertPoint x sorted) (sorted.map rank) := by
    induction points with
    | nil => exact fun _ _ => rfl
    | cons x points ih =>
      intro sorted finite'
      have hx := finite x List.mem_cons_self
      have inserted : ∀ y ∈ insertPoint x sorted, Finiteness.isFinite y = true := by
        intro y hy
        rcases mem_of_mem_insertPoint hy with rfl | hy
        · exact hx
        · exact finite' y hy
      rw [List.foldl_cons, List.map_cons, List.foldl_cons, ← ranked.map_insertPoint hx finite']
      exact ih (fun y hy => finite y (List.mem_cons_of_mem x hy)) _ inserted
  exact fold [] nofun

theorem mem_map_sortPoints {points : List K}
    (finite : ∀ x ∈ points, Finiteness.isFinite x = true) {r : L} :
    r ∈ (sortPoints points).map rank ↔ r ∈ points.map rank := by
  rw [ranked.map_sortPoints finite, mem_sortPoints]

end

variable [DecidableLE K]

/-! ### Domains -/

theorem lt_of_mem (d : Domain K) : d.points.Pairwise (· < ·) := by
  apply List.Pairwise.imp_of_mem _ (List.pairwise_map.mp (ranked.ranks_increasing d))
  intro x y hx hy below
  exact (ranked.lt x y (d.isFinite_of_mem x hx) (d.isFinite_of_mem y hy)).mpr below

theorem agrees_iff {d e : Domain K} : d.Agrees e ↔ d.points.map rank = e.points.map rank :=
  ranked.beq_iff d.isFinite_of_mem e.isFinite_of_mem

/-- Domains with the same ranks agree, since both are in order. -/
theorem agrees_of_mem_iff {d e : Domain K}
    (same : ∀ r, r ∈ d.points.map rank ↔ r ∈ e.points.map rank) : d.Agrees e :=
  ranked.agrees_iff.mpr
    ((ranked.ranks_increasing d).eq_of_mem_iff (ranked.ranks_increasing e) same)

theorem sameEnds_iff {d e : Domain K} :
    d.SameEnds e ↔ rank d.left = rank e.left ∧ rank d.right = rank e.right := by
  rw [← ranked.beq _ _ (d.isFinite_of_mem _ d.left_mem) (e.isFinite_of_mem _ e.left_mem),
    ← ranked.beq _ _ (d.isFinite_of_mem _ d.right_mem) (e.isFinite_of_mem _ e.right_mem)]
  exact ⟨fun same => ⟨same.left, same.right⟩, fun same => ⟨same.1, same.2⟩⟩

theorem sameEnds_symm {d e : Domain K} (same : d.SameEnds e) : e.SameEnds d := by
  rw [ranked.sameEnds_iff] at same ⊢
  exact same.imp Eq.symm Eq.symm

theorem sameEnds_trans {d e f : Domain K} (first : d.SameEnds e) (second : e.SameEnds f) :
    d.SameEnds f := by
  rw [ranked.sameEnds_iff] at first second ⊢
  exact ⟨first.1.trans second.1, first.2.trans second.2⟩

theorem sameEnds_of_agrees {d e : Domain K} (agrees : d.Agrees e) : d.SameEnds e := by
  have ranks := ranked.agrees_iff.mp agrees
  have head : ∀ d : Domain K, (d.points.map rank).head? = some (rank d.left) := by
    intro d
    rw [List.head?_map, List.head?_eq_some_head d.points_ne_nil]
    rfl
  have last : ∀ d : Domain K, (d.points.map rank).getLast? = some (rank d.right) := by
    intro d
    rw [List.getLast?_map, List.getLast?_eq_some_getLast d.points_ne_nil]
    rfl
  rw [ranked.sameEnds_iff]
  refine ⟨Option.some.inj ?_, Option.some.inj ?_⟩
  · rw [← head, ranks, head]
  · rw [← last, ranks, last]

theorem left_lt_right (d : Domain K) : rank d.left < rank d.right := by
  obtain ⟨points, two, finite, increasing⟩ := d
  cases points with
  | nil => cases two
  | cons x xs =>
    have sorted := ranked.ranks_increasing ⟨x :: xs, two, finite, increasing⟩
    have some_ : xs ≠ [] := by
      rintro rfl
      simp at two
    have last : right ⟨x :: xs, two, finite, increasing⟩ ∈ xs := by
      rw [right, List.getLast_cons some_]
      exact List.getLast_mem some_
    exact (List.pairwise_cons.mp sorted).1 _ (List.mem_map_of_mem last)

theorem consists_self (d : Domain K) : d.Consists d.points :=
  ⟨ranked.lt_of_mem d, fun _ => rfl⟩

/-- Domains that consist of the same points agree. -/
theorem agrees_of_consists {d e : Domain K} {points others : List K} (left : d.Consists points)
    (right : e.Consists others) (same : ∀ x, points.contains x = others.contains x) :
    d.Agrees e := by
  have known : ∀ x, d.points.contains x = e.points.contains x := fun x =>
    (left.contains x).trans ((same x).trans (right.contains x).symm)
  apply ranked.agrees_of_mem_iff
  intro r
  have listed : ∀ d : Domain K, ∀ x, Finiteness.isFinite x = true →
      (d.points.contains x = true ↔ rank x ∈ d.points.map rank) := by
    intro d x hx
    rw [ranked.contains_iff hx d.isFinite_of_mem, List.mem_map]
    exact exists_congr fun y => and_congr_right fun _ => eq_comm
  constructor
  · intro hr
    obtain ⟨x, hx, rfl⟩ := List.mem_map.mp hr
    have finite := d.isFinite_of_mem x hx
    rwa [← listed e x finite, ← known, listed d x finite]
  · intro hr
    obtain ⟨x, hx, rfl⟩ := List.mem_map.mp hr
    have finite := e.isFinite_of_mem x hx
    rwa [← listed d x finite, known, listed e x finite]

variable [DecidableLT K]

/-! ### Points that make a domain -/

/-- Finite points make a domain, unless they are all the same. -/
theorem exists_create {points : List K} (finite : ∀ x ∈ points, Finiteness.isFinite x = true)
    {x y : K} (hx : x ∈ points) (hy : y ∈ points) (below : rank x < rank y) :
    ∃ d, create points = .ok d := by
  have finite' : ∀ z ∈ sortPoints points, Finiteness.isFinite z = true :=
    fun z hz => finite z (mem_of_mem_sortPoints hz)
  have two : 2 ≤ (sortPoints points).length := by
    -- both ranks are in the sorted list, and a shorter one has no room for them
    have first := (ranked.mem_map_sortPoints finite).mpr (List.mem_map_of_mem (f := rank) hx)
    have second := (ranked.mem_map_sortPoints finite).mpr (List.mem_map_of_mem (f := rank) hy)
    match sortPoints points, first, second with
    | [z], first, second =>
      rw [List.map_singleton, List.mem_singleton] at first second
      exact absurd (first.trans second.symm) below.ne
    | _ :: _ :: _, _, _ => simp
  have increasing : increasingPoints (sortPoints points) = true := by
    rw [← ranked.increasingPoints_map finite', ranked.map_sortPoints finite, increasingPoints_iff]
    exact sortPoints_increasing _
  refine ⟨⟨sortPoints points, two, List.all_eq_true.mpr finite', increasing⟩, ?_⟩
  rw [create, ofPoints, dif_pos two, dif_pos (List.all_eq_true.mpr finite'), dif_pos increasing]

/-! ### Unions -/

/-- Domains with other ends have none. -/
theorem union_eq_error {d e : Domain K} (differ : ¬ d.SameEnds e) :
    d.union e = .error (.endsDiffer d.left d.right e.left e.right) := by
  unfold Domain.union
  split
  next agrees => exact absurd (ranked.sameEnds_symm (ranked.sameEnds_of_agrees agrees)) differ
  next =>
    rw [if_neg]
    intro ends
    obtain ⟨left, right⟩ := Bool.and_eq_true _ _ ▸ ends
    exact differ ⟨left, right⟩

theorem union_self (d : Domain K) : d.union d = .ok d := by
  have agrees : (d.points == d.points) = true := ranked.agrees_iff.mpr rfl
  rw [Domain.union, if_pos agrees]

variable [PartialEquivBEq K]

theorem consists_of_create {points : List K} {d : Domain K} (created : create points = .ok d) :
    d.Consists points :=
  ⟨ranked.lt_of_mem d, contains_create created⟩

/-- Domains with the same ends have a union. -/
theorem exists_union {d e : Domain K} (same : d.SameEnds e) :
    ∃ u, d.union e = .ok u ∧ u.Consists (d.points ++ e.points) ∧ u.SameEnds d := by
  have union : ∃ u, d.union e = .ok u := by
    unfold Domain.union
    split
    · exact ⟨d, rfl⟩
    · rw [same.left, same.right, Bool.and_true, if_pos rfl]
      have finite : ∀ x ∈ d.points ++ e.points, Finiteness.isFinite x = true := by
        intro x hx
        exact (List.mem_append.mp hx).elim (d.isFinite_of_mem x) (e.isFinite_of_mem x)
      exact ranked.exists_create finite (List.mem_append_left _ d.left_mem)
        (List.mem_append_left _ d.right_mem) (ranked.left_lt_right d)
  obtain ⟨u, run⟩ := union
  have included := ranked.includes_of_union run
  refine ⟨u, run, ⟨ranked.lt_of_mem u, fun x => ?_⟩, ?_⟩
  · rw [contains_union run, List.contains_append]
  · exact ranked.sameEnds_iff.mpr ⟨included.left, included.right⟩

theorem union_comm (d e : Domain K) : MergeAlike (d.union e) (e.union d) := by
  by_cases same : d.SameEnds e
  · obtain ⟨u, left, consists, -⟩ := ranked.exists_union same
    obtain ⟨v, right, consists', -⟩ := ranked.exists_union (ranked.sameEnds_symm same)
    rw [left, right]
    refine .ok (ranked.agrees_of_consists consists consists' fun x => ?_)
    rw [List.contains_append, List.contains_append, Bool.or_comm]
  · rw [ranked.union_eq_error same, ranked.union_eq_error fun h => same (ranked.sameEnds_symm h)]
    exact .differ ..

theorem union_assoc (d e f : Domain K) :
    MergeAlike (d.union e >>= fun u => u.union f) (e.union f >>= fun v => d.union v) := by
  by_cases first : d.SameEnds e
  · obtain ⟨u, de, consists, ends⟩ := ranked.exists_union first
    rw [de]
    show MergeAlike (u.union f) _
    by_cases second : e.SameEnds f
    · obtain ⟨v, ef, consists', ends'⟩ := ranked.exists_union second
      obtain ⟨x, left, all, -⟩ := ranked.exists_union
        (ranked.sameEnds_trans ends (ranked.sameEnds_trans first second))
      obtain ⟨y, right, all', -⟩ := ranked.exists_union
        (ranked.sameEnds_trans first (ranked.sameEnds_symm ends'))
      rw [ef, left]
      show MergeAlike _ (d.union v)
      rw [right]
      -- either way the points are those of all three
      refine .ok (ranked.agrees_of_consists all all' fun z => ?_)
      simp only [List.contains_append, consists.contains, consists'.contains, Bool.or_assoc]
    · -- the union of the first two has the ends of both, which are not those of the third
      rw [ranked.union_eq_error second, ranked.union_eq_error fun h => second
        (ranked.sameEnds_trans (ranked.sameEnds_symm (ranked.sameEnds_trans ends first)) h)]
      exact .differ ..
  · rw [ranked.union_eq_error first]
    by_cases second : e.SameEnds f
    · obtain ⟨v, ef, -, ends⟩ := ranked.exists_union second
      rw [ef]
      show MergeAlike _ (d.union v)
      rw [ranked.union_eq_error fun h => first (ranked.sameEnds_trans h ends)]
      exact .differ ..
    · rw [ranked.union_eq_error second]
      exact .differ ..

theorem unionLaws : UnionLaws K where
  idempotent := ranked.union_self
  commutative := ranked.union_comm
  associative := ranked.union_assoc
  merges _ _ := ranked.exists_union
  refuses _ _ := ranked.union_eq_error

/-! ### Merging several domains -/

omit [PartialEquivBEq K] in
theorem merged_nil (d : Domain K) : d.Merged [] d where
  suit := nofun
  ends := ranked.sameEnds_of_agrees (ranked.agrees_iff.mpr rfl)
  consists := by simpa using ranked.consists_self d

omit [PartialEquivBEq K] in
/-- It only matters which points are merged, not how they are distributed. -/
theorem merged_unique {d u v : Domain K} {lists others : List (List K)} (left : d.Merged lists u)
    (right : d.Merged others v) (same : ∀ x, lists.flatten.contains x = others.flatten.contains x) :
    u.Agrees v := by
  apply ranked.agrees_of_consists left.consists right.consists
  intro x
  rw [List.contains_append, List.contains_append, same]

/-- What has been merged with one domain has a union. -/
theorem merged_union {d u v : Domain K} {lists others : List (List K)} (left : d.Merged lists u)
    (right : d.Merged others v) : ∃ t, u.union v = .ok t ∧ d.Merged (lists ++ others) t := by
  obtain ⟨t, union, consists, ends⟩ := ranked.exists_union
    (ranked.sameEnds_trans (ranked.sameEnds_symm left.ends) right.ends)
  refine ⟨t, union, ?_, ?_, consists.increasing, fun x => ?_⟩
  · exact fun points listed => (List.mem_append.mp listed).elim (left.suit points)
      (right.suit points)
  · exact ranked.sameEnds_trans left.ends (ranked.sameEnds_symm ends)
  · rw [consists.contains]
    simp only [List.contains_append, left.consists.contains, right.consists.contains,
      List.flatten_append]
    -- the points of the common domain come twice
    cases d.points.contains x <;> simp

/-- Points that suit can be added. -/
theorem merged_create {d u e : Domain K} {lists : List (List K)} (merged : d.Merged lists u)
    {points : List K} (created : create points = .ok e) (same : d.SameEnds e) :
    ∃ t, u.union e = .ok t ∧ d.Merged (lists ++ [points]) t := by
  obtain ⟨t, union, consists, ends⟩ := ranked.exists_union
    (ranked.sameEnds_trans (ranked.sameEnds_symm merged.ends) same)
  refine ⟨t, union, ?_, ?_, consists.increasing, fun x => ?_⟩
  · intro others listed
    rcases List.mem_append.mp listed with listed | listed
    · exact merged.suit others listed
    · exact List.mem_singleton.mp listed ▸ ⟨e, created, same⟩
  · exact ranked.sameEnds_trans merged.ends (ranked.sameEnds_symm ends)
  · rw [consists.contains]
    simp only [List.contains_append, merged.consists.contains, contains_create created,
      List.flatten_append, List.flatten_singleton, Bool.or_assoc]

end Ranked

end Domain

end JetForm
