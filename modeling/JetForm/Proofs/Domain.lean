import Mathlib.Order.Lattice
import JetForm.Domain

/-! # Breakpoints of domains

    Which points a merged domain has.  Sorting may drop a point, but only one
    that is equal to a point it keeps, so membership is stated up to the
    equality test of the scalars: `points.contains x`.  The test need not be
    reflexive, for there are undefined doubles.

    In a linear order the points of a domain are strictly increasing. -/

namespace JetForm

namespace Domain

/-! ## Equal points -/

section

variable {K : Type} [BEq K] [PartialEquivBEq K]

/-- A point that counts as the same stands for the other one. -/
theorem beq_of_samePoint {x y z : K} (same : samePoint x y) (hz : z == x) : z == y := by
  unfold samePoint at same
  by_cases hxy : x == y
  · exact BEq.trans hz hxy
  · -- Both points are undefined then, and nothing is equal to such a point.
    have hxx : x == x := BEq.trans (BEq.symm hz) hz
    simp [hxy, bne, hxx] at same

/-- Equal lists of points contain the same. -/
theorem contains_of_beq {points others : List K} (h : points == others) (z : K) :
    points.contains z = others.contains z := by
  induction points generalizing others with
  | nil => cases others with
    | nil => rfl
    | cons y ys => cases h
  | cons x xs ih => cases others with
    | nil => cases h
    | cons y ys =>
      obtain ⟨hxy, hrest⟩ : x == y ∧ xs == ys := by simpa [List.cons_beq_cons] using h
      have head : (z == x) = (z == y) :=
        Bool.eq_iff_iff.mpr ⟨fun hz => BEq.trans hz hxy, fun hz => BEq.trans hz (BEq.symm hxy)⟩
      rw [List.contains_cons, List.contains_cons, head, ih hrest]

end

/-! ## Merging loses no point -/

section

variable {K : Type} [LT K] [DecidableLT K] [BEq K] [PartialEquivBEq K]

theorem contains_insertPoint (x z : K) (points : List K) :
    (insertPoint x points).contains z = (z == x || points.contains z) := by
  induction points with
  | nil => simp [insertPoint]
  | cons y ys ih =>
    unfold insertPoint
    by_cases hlt : x < y
    · simp [hlt]
    · by_cases same : samePoint x y
      · have hzy : z == x → z == y := beq_of_samePoint same
        by_cases hzx : z == x
        · simp [hlt, same, hzx, hzy hzx]
        · simp [hlt, same, hzx]
      · simp only [hlt, same, if_false, Bool.false_eq_true, List.contains_cons, ih]
        exact Bool.or_left_comm ..

theorem contains_sortPoints (z : K) (points : List K) :
    (sortPoints points).contains z = points.contains z := by
  have fold : ∀ sorted : List K,
      (points.foldl (fun sorted x => insertPoint x sorted) sorted).contains z
        = (points.contains z || sorted.contains z) := by
    induction points with
    | nil => simp
    | cons x points ih =>
      intro sorted
      rw [List.foldl_cons, ih, contains_insertPoint, List.contains_cons]
      simp only [Bool.or_assoc, Bool.or_left_comm]
  simpa [sortPoints] using fold []

variable [LE K] [DecidableLE K] [Finiteness K]

theorem contains_create {points : List K} {d : Domain K} (h : create points = .ok d) (z : K) :
    d.points.contains z = points.contains z := by
  have hd : d.points = sortPoints points := by
    unfold create ofPoints at h
    split_ifs at h
    cases h
    rfl
  rw [hd, contains_sortPoints]

/-- A union has the breakpoints of both domains and no others. -/
theorem contains_union {d e u : Domain K} (h : d.union e = .ok u) (z : K) :
    u.points.contains z = (d.points.contains z || e.points.contains z) := by
  unfold union at h
  split_ifs at h with same ends
  · cases h
    rw [contains_of_beq same, Bool.or_self]
  · rw [contains_create h]
    simp

end

/-! ## Linear orders -/

section

variable {K : Type} [LinearOrder K]

theorem increasing_cons {x y : K} {ys : List K} (h : x < y)
    (increasing : (y :: ys).Pairwise (· < ·)) :
    (x :: y :: ys).Pairwise (· < ·) := by
  refine List.pairwise_cons.mpr ⟨fun z hz => ?_, increasing⟩
  rcases List.mem_cons.mp hz with rfl | hz
  · exact h
  · exact h.trans ((List.pairwise_cons.mp increasing).1 z hz)

theorem mem_sortPoints {x : K} {points : List K} : x ∈ sortPoints points ↔ x ∈ points := by
  have h := contains_sortPoints x points
  rw [Bool.eq_iff_iff, List.contains_iff_mem, List.contains_iff_mem] at h
  exact h

theorem insertPoint_increasing {x : K} {points : List K} (h : points.Pairwise (· < ·)) :
    (insertPoint x points).Pairwise (· < ·) := by
  induction points with
  | nil => simp [insertPoint]
  | cons y ys ih =>
    obtain ⟨first, rest⟩ := List.pairwise_cons.mp h
    unfold insertPoint
    by_cases hlt : x < y
    · rw [if_pos hlt]
      exact increasing_cons hlt h
    · by_cases same : samePoint x y
      · simpa [hlt, same] using h
      · have hyx : y < x := by
          refine lt_of_le_of_ne (not_lt.mp hlt) fun heq => same ?_
          simp [samePoint, heq]
        have all : ∀ z ∈ insertPoint x ys, y < z := by
          intro z hz
          have := contains_insertPoint x z ys
          simp only [List.contains_eq_mem, hz, decide_true] at this
          grind
        simpa [hlt, same] using ⟨all, ih rest⟩

theorem sortPoints_increasing (points : List K) : (sortPoints points).Pairwise (· < ·) := by
  have fold : ∀ sorted : List K, sorted.Pairwise (· < ·) →
      (points.foldl (fun sorted x => insertPoint x sorted) sorted).Pairwise (· < ·) := by
    induction points with
    | nil => exact fun _ h => h
    | cons x points ih => exact fun sorted h => ih _ (insertPoint_increasing h)
  exact fold [] .nil

theorem increasingPoints_iff {points : List K} :
    increasingPoints points = true ↔ points.Pairwise (· < ·) := by
  induction points with
  | nil => simp [increasingPoints]
  | cons a rest ih => cases rest with
    | nil => simp [increasingPoints]
    | cons b rest =>
      rw [increasingPoints, Bool.and_eq_true, ih, List.pairwise_cons (l := b :: rest)]
      constructor
      · rintro ⟨hab, h⟩
        exact List.pairwise_cons.mp (increasing_cons (by simpa using hab) h)
      · rintro ⟨first, h⟩
        exact ⟨by simpa using first b (by simp), h⟩

variable [Finiteness K]

theorem points_increasing (d : Domain K) : d.points.Pairwise (· < ·) :=
  increasingPoints_iff.mp d.increasing

end

/-! ## Included domains -/

section

variable {K L : Type} [LE K] [DecidableLE K] [Finiteness K] {rank : K → L}

theorem isFinite_of_mem (d : Domain K) : ∀ x ∈ d.points, Finiteness.isFinite x = true :=
  List.all_eq_true.mp d.finite

theorem left_mem (d : Domain K) : d.left ∈ d.points :=
  List.head_mem d.points_ne_nil

theorem right_mem (d : Domain K) : d.right ∈ d.points :=
  List.getLast_mem d.points_ne_nil

/-- Domain `d` has the ends of domain `e`, and a point for each of its points. -/
structure Includes (rank : K → L) (d e : Domain K) : Prop where
  left : rank d.left = rank e.left
  right : rank d.right = rank e.right
  points : ∀ x ∈ e.points, ∃ y ∈ d.points, rank x = rank y

theorem Includes.refl (d : Domain K) : d.Includes rank d :=
  ⟨rfl, rfl, fun x hx => ⟨x, hx, rfl⟩⟩

theorem Includes.trans {d e f : Domain K} (first : d.Includes rank e) (second : e.Includes rank f) :
    d.Includes rank f := by
  refine ⟨first.left.trans second.left, first.right.trans second.right, fun x hx => ?_⟩
  obtain ⟨y, hy, same⟩ := second.points x hx
  obtain ⟨z, hz, same'⟩ := first.points y hy
  exact ⟨z, hz, same.trans same'⟩

end

/-! ## Points with ranks -/

section

variable {K L : Type} [LT K] [LE K] [BEq K] [Finiteness K] [LinearOrder L]

/-- The finite scalars are ordered like their ranks, which are in a linear order. -/
structure Ranked (rank : K → L) : Prop where
  lt : ∀ x y : K, Finiteness.isFinite x = true → Finiteness.isFinite y = true →
    (x < y ↔ rank x < rank y)
  le : ∀ x y : K, Finiteness.isFinite x = true → Finiteness.isFinite y = true →
    (x ≤ y ↔ rank x ≤ rank y)
  beq : ∀ x y : K, Finiteness.isFinite x = true → Finiteness.isFinite y = true →
    ((x == y) = true ↔ rank x = rank y)

namespace Ranked

variable {rank : K → L} (ranked : Ranked rank)
include ranked

theorem samePoint_iff {x y : K} (hx : Finiteness.isFinite x = true)
    (hy : Finiteness.isFinite y = true) : samePoint x y = true ↔ rank x = rank y := by
  have hxx : (x == x) = true := (ranked.beq x x hx hx).mpr rfl
  unfold samePoint
  rw [bne, hxx, Bool.not_true, Bool.false_and, Bool.or_false, ranked.beq x y hx hy]

theorem contains_iff {x : K} {points : List K} (hx : Finiteness.isFinite x = true)
    (finite : ∀ y ∈ points, Finiteness.isFinite y = true) :
    points.contains x = true ↔ ∃ y ∈ points, rank x = rank y := by
  rw [List.contains_iff_exists_mem_beq]
  constructor
  · rintro ⟨y, hy, same⟩
    exact ⟨y, hy, (ranked.beq x y hx (finite y hy)).mp same⟩
  · rintro ⟨y, hy, same⟩
    exact ⟨y, hy, (ranked.beq x y hx (finite y hy)).mpr same⟩

section

variable [DecidableLT K]

/-- A point above all others comes last. -/
theorem insertPoint_above {x : K} {points : List K} (hx : Finiteness.isFinite x = true)
    (finite : ∀ y ∈ points, Finiteness.isFinite y = true)
    (above : ∀ y ∈ points, rank y < rank x) : insertPoint x points = points ++ [x] := by
  induction points with
  | nil => rfl
  | cons y ys ih =>
    have hy := finite y List.mem_cons_self
    have hlt := above y List.mem_cons_self
    have rest := ih (fun z hz => finite z (List.mem_cons_of_mem y hz)) fun z hz =>
      above z (List.mem_cons_of_mem y hz)
    unfold insertPoint
    rw [if_neg (fun h => hlt.asymm ((ranked.lt x y hx hy).mp h)),
      if_neg (fun h => hlt.ne' ((ranked.samePoint_iff hx hy).mp h)), rest, List.cons_append]

/-- A point that is there already is not repeated. -/
theorem insertPoint_present {x y : K} {points : List K} (hx : Finiteness.isFinite x = true)
    (finite : ∀ y ∈ points, Finiteness.isFinite y = true)
    (sorted : (points.map rank).Pairwise (· < ·)) (hy : y ∈ points) (same : rank x = rank y) :
    insertPoint x points = points := by
  induction points with
  | nil => cases hy
  | cons z zs ih =>
    have hz := finite z List.mem_cons_self
    obtain ⟨below, sorted⟩ := List.pairwise_cons.mp sorted
    unfold insertPoint
    by_cases here : rank x = rank z
    · rw [if_neg (fun h => ((ranked.lt x z hx hz).mp h).ne here),
        if_pos ((ranked.samePoint_iff hx hz).mpr here)]
    · -- so it is farther back
      have later : y ∈ zs := by
        rcases List.mem_cons.mp hy with rfl | later
        · exact absurd same here
        · exact later
      have hlt : rank z < rank x := same ▸ below _ (List.mem_map_of_mem later)
      rw [if_neg (fun h => hlt.asymm ((ranked.lt x z hx hz).mp h)),
        if_neg (fun h => here ((ranked.samePoint_iff hx hz).mp h)),
        ih (fun w hw => finite w (List.mem_cons_of_mem z hw)) sorted later]

/-- Points in order are sorted already, and points that are there add nothing. -/
theorem sortPoints_append {points others : List K}
    (finite : ∀ x ∈ points, Finiteness.isFinite x = true)
    (finite' : ∀ x ∈ others, Finiteness.isFinite x = true)
    (sorted : (points.map rank).Pairwise (· < ·))
    (present : ∀ x ∈ others, ∃ y ∈ points, rank x = rank y) :
    sortPoints (points ++ others) = points := by
  -- the points come in order, so each one goes to the end
  have first : ∀ before after : List K, before ++ after = points →
      after.foldl (fun sorted x => insertPoint x sorted) before = points := by
    intro before after
    induction after generalizing before with
    | nil => exact fun eq => (List.append_nil before).symm.trans eq
    | cons x after ih =>
      intro eq
      have inside : ∀ y ∈ before, y ∈ points := fun y hy => by simp [← eq, hy]
      have above : ∀ y ∈ before, rank y < rank x := by
        rw [← eq, List.map_append, List.pairwise_append] at sorted
        exact fun y hy => sorted.2.2 _ (List.mem_map_of_mem hy) _ (by simp)
      rw [List.foldl_cons, ranked.insertPoint_above (finite x (by simp [← eq]))
        (fun y hy => finite y (inside y hy)) above]
      exact ih (before ++ [x]) (by simp [← eq])
  -- the others are there by then
  have rest : others.foldl (fun sorted x => insertPoint x sorted) points = points := by
    induction others with
    | nil => rfl
    | cons x others ih =>
      obtain ⟨y, hy, same⟩ := present x List.mem_cons_self
      rw [List.foldl_cons,
        ranked.insertPoint_present (finite' x List.mem_cons_self) finite sorted hy same]
      exact ih (fun z hz => finite' z (List.mem_cons_of_mem x hz)) fun z hz =>
        present z (List.mem_cons_of_mem x hz)
  rw [sortPoints, List.foldl_append, first [] points rfl, rest]

end

section

variable [DecidableLE K]

/-- The points are increasing if their ranks are. -/
theorem increasingPoints_map {points : List K}
    (finite : ∀ x ∈ points, Finiteness.isFinite x = true) :
    increasingPoints (points.map rank) = increasingPoints points := by
  induction points with
  | nil => rfl
  | cons a rest ih =>
    have ha := finite a List.mem_cons_self
    have below := ih fun x hx => finite x (List.mem_cons_of_mem a hx)
    cases rest with
    | nil => rfl
    | cons b rest =>
      have hb := finite b (by simp)
      rw [List.map_cons, List.map_cons, increasingPoints, increasingPoints,
        decide_eq_decide.mpr (ranked.le b a hb ha)]
      rw [List.map_cons] at below
      rw [below]

theorem ranks_increasing (d : Domain K) : (d.points.map rank).Pairwise (· < ·) := by
  apply increasingPoints_iff.mp
  rw [ranked.increasingPoints_map d.isFinite_of_mem]
  exact d.increasing

theorem left_le (d : Domain K) : ∀ x ∈ d.points, rank d.left ≤ rank x := by
  obtain ⟨points, two, finite, increasing⟩ := d
  have sorted := ranked.ranks_increasing ⟨points, two, finite, increasing⟩
  cases points with
  | nil => cases two
  | cons y ys =>
    intro x hx
    rcases List.mem_cons.mp hx with rfl | hx
    · exact le_rfl
    · exact ((List.pairwise_cons.mp sorted).1 _ (List.mem_map_of_mem hx)).le

theorem le_right (d : Domain K) : ∀ x ∈ d.points, rank x ≤ rank d.right := by
  intro x hx
  have sorted := ranked.ranks_increasing d
  rw [← List.dropLast_concat_getLast d.points_ne_nil] at hx sorted
  rcases List.mem_append.mp hx with hx | hx
  · rw [List.map_append, List.pairwise_append] at sorted
    exact (sorted.2.2 _ (List.mem_map_of_mem hx) _ (by simp [right])).le
  · rw [List.mem_singleton.mp hx]
    exact le_rfl

end

/-! ### Unions -/

variable [DecidableLT K] [DecidableLE K]

/-- Merging a domain that is included changes nothing. -/
theorem union_of_includes {d e : Domain K} (includes : d.Includes rank e) :
    d.union e = .ok d := by
  have left : (d.left == e.left) = true := (ranked.beq _ _ (d.isFinite_of_mem _ d.left_mem)
    (e.isFinite_of_mem _ e.left_mem)).mpr includes.left
  have right : (d.right == e.right) = true := (ranked.beq _ _ (d.isFinite_of_mem _ d.right_mem)
    (e.isFinite_of_mem _ e.right_mem)).mpr includes.right
  have points : sortPoints (d.points ++ e.points) = d.points :=
    ranked.sortPoints_append d.isFinite_of_mem e.isFinite_of_mem (ranked.ranks_increasing d)
      includes.points
  unfold union
  split
  · rfl
  · rw [left, right, Bool.and_true, if_pos rfl, create, points, ofPoints,
      dif_pos d.two_le_length, dif_pos d.finite, dif_pos d.increasing]

theorem foldlM_union_of_includes {d : Domain K} {es : List (Domain K)}
    (includes : ∀ e ∈ es, d.Includes rank e) : es.foldlM union d = .ok d := by
  induction es with
  | nil => rfl
  | cons e es ih =>
    rw [List.foldlM_cons, ranked.union_of_includes (includes e List.mem_cons_self)]
    exact ih fun f hf => includes f (List.mem_cons_of_mem e hf)

variable [PartialEquivBEq K]

/-- A union includes the domain to which another one was added. -/
theorem includes_of_union {d e u : Domain K} (union : d.union e = .ok u) : u.Includes rank d := by
  have points : ∀ x ∈ d.points, ∃ y ∈ u.points, rank x = rank y := by
    intro x hx
    have finite := d.isFinite_of_mem x hx
    have listed := contains_union union x
    rw [(ranked.contains_iff finite d.isFinite_of_mem).mpr ⟨x, hx, rfl⟩, Bool.true_or] at listed
    exact (ranked.contains_iff finite u.isFinite_of_mem).mp listed
  -- nothing comes from elsewhere
  have only : ∀ x ∈ u.points, ∃ y, (y ∈ d.points ∨ y ∈ e.points) ∧ rank x = rank y := by
    intro x hx
    have finite := u.isFinite_of_mem x hx
    have listed := contains_union union x
    rw [(ranked.contains_iff finite u.isFinite_of_mem).mpr ⟨x, hx, rfl⟩] at listed
    rcases Bool.or_eq_true _ _ ▸ listed.symm with here | there
    · obtain ⟨y, hy, same⟩ := (ranked.contains_iff finite d.isFinite_of_mem).mp here
      exact ⟨y, Or.inl hy, same⟩
    · obtain ⟨y, hy, same⟩ := (ranked.contains_iff finite e.isFinite_of_mem).mp there
      exact ⟨y, Or.inr hy, same⟩
  unfold Domain.union at union
  split_ifs at union with same ends
  · cases union
    exact .refl d
  · obtain ⟨left, right⟩ := Bool.and_eq_true _ _ ▸ ends
    have left := (ranked.beq _ _ (d.isFinite_of_mem _ d.left_mem)
      (e.isFinite_of_mem _ e.left_mem)).mp left
    have right := (ranked.beq _ _ (d.isFinite_of_mem _ d.right_mem)
      (e.isFinite_of_mem _ e.right_mem)).mp right
    -- the union has the ends of the first domain, and none of its points lies beyond them
    refine ⟨le_antisymm ?_ ?_, le_antisymm ?_ ?_, points⟩
    · obtain ⟨y, hy, eq⟩ := points _ d.left_mem
      exact (ranked.left_le u y hy).trans_eq eq.symm
    · obtain ⟨y, hy | hy, eq⟩ := only _ u.left_mem
      · exact (ranked.left_le d y hy).trans_eq eq.symm
      · exact left.trans_le ((ranked.left_le e y hy).trans_eq eq.symm)
    · obtain ⟨y, hy | hy, eq⟩ := only _ u.right_mem
      · exact eq.trans_le (ranked.le_right d y hy)
      · exact eq.trans_le ((ranked.le_right e y hy).trans_eq right.symm)
    · obtain ⟨y, hy, eq⟩ := points _ d.right_mem
      exact eq.trans_le (ranked.le_right u y hy)

theorem includes_of_foldlM {given d : Domain K} {es : List (Domain K)}
    (joined : es.foldlM union given = .ok d) : d.Includes rank given := by
  induction es generalizing given with
  | nil =>
    cases joined
    exact .refl _
  | cons e es ih =>
    rw [List.foldlM_cons] at joined
    cases first : given.union e with
    | error e =>
      rw [first] at joined
      cases joined
    | ok u =>
      rw [first] at joined
      exact (ih joined).trans (ranked.includes_of_union first)

end Ranked

end

/-- The unit interval, without breakpoints inside. -/
def unitInterval : Domain Float :=
  ⟨[0, 1], by decide, by decide +kernel, by decide +kernel⟩

end Domain

end JetForm
