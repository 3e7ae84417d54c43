import Mathlib
import JetForm.Proofs.Domain
import JetForm.Reduction.Singularity

/-! # What sampling looks at

    A sampled coefficient is accepted if on each piece no sample is small, all
    samples have one sign, and no search between the neighbours of a lowest sample
    finds anything small.

    A valley is a run of equal samples whose neighbours, where it has any, are
    larger.  A valley that is not the whole piece has an end with a larger
    neighbour, and a search is started there.  So no valley is skipped, of whatever
    length, be it in the middle of the piece or at one of its ends. -/

namespace JetForm

/-! ## Lowest entries -/

section

variable {L : Type} [LinearOrder L] {f : ℕ → L} {n i j : ℕ}

end

namespace Singularity

variable {K : Type} [Zero K] [Neg K] [LE K] [DecidableLE K] [LT K] [DecidableLT K]

/-! ## Neighbours -/

theorem length_withNeighbours {α : Type} (xs : List α) :
    (withNeighbours xs).length = xs.length := by
  cases xs with
  | nil => rfl
  | cons x xs =>
    have last : (x :: xs).getLast?.toList.length = 1 := by
      rw [List.getLast?_cons]
      rfl
    simp only [withNeighbours, List.length_zip, List.length_append, last, List.length_drop,
      List.length_take, List.length_cons]
    omega

/-- An entry with its neighbours, the entry itself standing for one that is missing. -/
theorem getElem?_withNeighbours {α : Type} {xs : List α} {k : Nat} (hk : k < xs.length) :
    (withNeighbours xs)[k]? =
      some (xs[k - 1], xs[k], xs[min (k + 1) (xs.length - 1)]) := by
  -- on the left the list is shifted by one place, with the first entry in front
  have before : (xs.take 1 ++ xs)[k]? = some xs[k - 1] := by
    cases k with
    | zero =>
      rw [List.getElem?_append_left (by simp; omega)]
      simp [hk]
    | succ k =>
      have one : (xs.take 1).length = 1 := by simp; omega
      rw [List.getElem?_append_right (by simp), one]
      simp
  -- on the right it is shifted the other way, with the last entry behind
  have after : (xs.drop 1 ++ xs.getLast?.toList)[k]? = some xs[min (k + 1) (xs.length - 1)] := by
    by_cases last : k + 1 < xs.length
    · have inside : min (k + 1) (xs.length - 1) = k + 1 := by omega
      rw [List.getElem?_append_left (by simp; omega)]
      simp [inside, last]
    · have inside : min (k + 1) (xs.length - 1) = xs.length - 1 := by omega
      have position : k - (xs.drop 1).length = 0 := by simp; omega
      rw [List.getElem?_append_right (by simp; omega), position]
      have some_ : xs ≠ [] := List.ne_nil_of_length_pos (by omega)
      rw [List.getLast?_eq_some_getLast some_, List.getLast_eq_getElem]
      simp [inside]
  rw [withNeighbours, List.getElem?_zip_eq_some]
  refine ⟨before, ?_⟩
  rw [List.getElem?_zip_eq_some]
  exact ⟨List.getElem?_eq_getElem hk, after⟩

theorem mem_brackets_iff {samples : List (Sample K)} {lo hi : K} :
    (lo, hi) ∈ brackets samples ↔ ∃ (k : Nat) (hk : k < samples.length),
      isStrictMinimum samples[k - 1] samples[k] samples[min (k + 1) (samples.length - 1)] = true ∧
      lo = samples[k - 1].1 ∧ hi = samples[min (k + 1) (samples.length - 1)].1 := by
  rw [brackets, List.mem_filterMap]
  constructor
  · rintro ⟨⟨left, middle, right⟩, listed, made⟩
    obtain ⟨k, hk, entry⟩ := List.getElem_of_mem listed
    rw [length_withNeighbours] at hk
    have known := getElem?_withNeighbours hk
    rw [List.getElem?_eq_getElem (by rwa [length_withNeighbours]), entry] at known
    cases known
    dsimp only at made
    split at made
    next strict =>
      cases made
      exact ⟨k, hk, strict, rfl, rfl⟩
    next => cases made
  · rintro ⟨k, hk, strict, rfl, rfl⟩
    exact ⟨_, List.mem_of_getElem? (getElem?_withNeighbours hk), if_pos strict⟩

/-! ## When nothing is found -/

theorem find?_neighbours_eq_none {α : Type} {p : α × α → Bool} {xs : List α} :
    (xs.zip xs.tail).find? p = none ↔ xs.IsChain fun a b => p (a, b) = false := by
  induction xs with
  | nil => simp
  | cons x xs ih =>
    cases xs with
    | nil => simp
    | cons y ys =>
      rw [List.isChain_cons_cons, ← ih, List.tail_cons, List.zip_cons_cons, List.find?_cons]
      cases p (x, y) <;> simp

omit [Neg K] [LE K] [DecidableLE K] in
/-- If neighbours have one sign, all samples have. -/
theorem isChain_signs_iff {samples : List (Sample K)} :
    (samples.IsChain fun a b => signOf b.2 = signOf a.2) ↔
      ∀ s ∈ samples, ∀ s' ∈ samples, signOf s.2 = signOf s'.2 := by
  have mapped : (samples.IsChain fun a b => signOf b.2 = signOf a.2) ↔
      (samples.map fun s => signOf s.2).Pairwise Eq := by
    rw [← List.isChain_iff_pairwise, List.isChain_map]
    exact ⟨fun chain => chain.imp fun _ _ => Eq.symm, fun chain => chain.imp fun _ _ => Eq.symm⟩
  rw [mapped]
  constructor
  · intro pairs s hs s' hs'
    exact pairs.forall_of_forall (fun _ _ => rfl)
      (List.mem_map_of_mem hs) (List.mem_map_of_mem hs')
  · intro all
    rw [List.pairwise_map]
    exact List.pairwise_of_forall_mem_list all

theorem onPiece_eq_none_iff {search : K → K → K × K} {threshold : K}
    {samples : List (Sample K)} :
    onPiece search threshold samples = none ↔
      (∀ s ∈ samples, ¬ magnitude s.2 ≤ threshold) ∧
      (samples.IsChain fun a b => signOf b.2 = signOf a.2) ∧
      ∀ lo hi, (lo, hi) ∈ brackets samples → ¬ (search lo hi).2 ≤ threshold := by
  have small : samples.find? (fun s => decide (magnitude s.2 ≤ threshold)) = none ↔
      ∀ s ∈ samples, ¬ magnitude s.2 ≤ threshold := by
    simp [List.find?_eq_none]
  have changes : (samples.zip samples.tail).find? (fun p => signOf p.2.2 != signOf p.1.2) = none ↔
      samples.IsChain fun a b => signOf b.2 = signOf a.2 := by
    rw [find?_neighbours_eq_none]
    simp
  have touches : (brackets samples).findSome? (fun b =>
      if (search b.1 b.2).2 ≤ threshold then some (.vanishesNear (search b.1 b.2).1) else none) =
        (none : Option (Singularity K)) ↔
      ∀ lo hi, (lo, hi) ∈ brackets samples → ¬ (search lo hi).2 ≤ threshold := by
    simp [List.findSome?_eq_none_iff]
  rw [← small, ← changes, ← touches]
  unfold onPiece
  cases samples.find? fun s => decide (magnitude s.2 ≤ threshold) with
  | some s => simp
  | none =>
    cases (samples.zip samples.tail).find? fun p => signOf p.2.2 != signOf p.1.2 with
    | some p => simp
    | none => simp

theorem ofPieces_eq_none_iff [One K] [Mul K] [Finiteness K] {search : K → K → K × K} {tolerance : K}
    {pieces : List (List (Sample K))} :
    ofPieces search tolerance pieces = none ↔
      (∀ samples ∈ pieces, ∀ s ∈ samples, Finiteness.isFinite s.2 = true) ∧
      ∀ samples ∈ pieces,
        onPiece search (threshold tolerance (pieces.flatten.map Prod.snd)) samples = none := by
  have finite : (pieces.flatten.map Prod.snd).all Finiteness.isFinite = true ↔
      ∀ samples ∈ pieces, ∀ s ∈ samples, Finiteness.isFinite s.2 = true := by
    rw [List.all_map, List.all_flatten, List.all_eq_true]
    exact forall₂_congr fun samples _ => List.all_eq_true
  unfold ofPieces
  dsimp only
  split
  next all => rw [List.findSome?_eq_none_iff, and_iff_right (finite.mp all)]
  next some_ => exact iff_of_false nofun fun known => some_ (finite.mpr known.1)

/-! ## The threshold -/

/-- The scale of values is the largest of their magnitudes, or one. -/
structure IsScale [One K] (values : List K) (scale : K) : Prop where
  attained : scale = 1 ∨ ∃ c ∈ values, scale = magnitude c
  one_le : 1 ≤ scale
  largest : ∀ c ∈ values, magnitude c ≤ scale

section

variable [BEq K] [Finiteness K] {L : Type} [LinearOrder L] {rank : K → L}
  (ranked : Domain.Ranked rank)
include ranked

omit [Zero K] [Neg K] [DecidableLE K] [DecidableLT K] in
theorem le_self {x : K} (hx : Finiteness.isFinite x = true) : x ≤ x :=
  (ranked.le x x hx hx).mpr le_rfl

omit [Zero K] [Neg K] [DecidableLT K] in
/-- The larger of two scalars is one of them, and neither is above it. -/
theorem larger_spec {x y : K} (hx : Finiteness.isFinite x = true)
    (hy : Finiteness.isFinite y = true) :
    (larger x y = x ∨ larger x y = y) ∧ x ≤ larger x y ∧ y ≤ larger x y := by
  unfold larger
  split
  next le => exact ⟨Or.inl rfl, le_self ranked hx, le⟩
  next above =>
    rw [ranked.le y x hy hx, not_le] at above
    exact ⟨Or.inr rfl, (ranked.le x y hx hy).mpr above.le, le_self ranked hy⟩

/-- The threshold is a share of the scale of the samples. -/
theorem threshold_eq [One K] [Mul K] (tolerance : K) {values : List K}
    (one : Finiteness.isFinite (1 : K) = true)
    (finite : ∀ c ∈ values, Finiteness.isFinite (magnitude c) = true) :
    ∃ scale, threshold tolerance values = tolerance * scale ∧ IsScale values scale ∧
      Finiteness.isFinite scale = true := by
  -- generalized to the largest magnitude so far
  have fold : ∀ most : K, Finiteness.isFinite most = true → ∃ scale,
      values.foldl (fun most c => larger most (magnitude c)) most = scale ∧
      (scale = most ∨ ∃ c ∈ values, scale = magnitude c) ∧ most ≤ scale ∧
      (∀ c ∈ values, magnitude c ≤ scale) ∧ Finiteness.isFinite scale = true := by
    induction values with
    | nil => exact fun most known => ⟨most, rfl, Or.inl rfl, le_self ranked known, nofun, known⟩
    | cons c cs ih =>
      intro most known
      have hc := finite c List.mem_cons_self
      obtain ⟨either, left, right⟩ := larger_spec ranked known hc
      have next : Finiteness.isFinite (larger most (magnitude c)) = true := by
        rcases either with same | same
        · rwa [same]
        · rwa [same]
      obtain ⟨scale, folded, attained, least, largest, finite'⟩ :=
        ih (fun x hx => finite x (List.mem_cons_of_mem c hx)) _ next
      have through : ∀ x, Finiteness.isFinite x = true → x ≤ larger most (magnitude c) →
          x ≤ scale := by
        intro x hx le
        rw [ranked.le _ _ hx next] at le
        rw [ranked.le _ _ next finite'] at least
        exact (ranked.le _ _ hx finite').mpr (le.trans least)
      refine ⟨scale, folded, ?_, through most known left, ?_, finite'⟩
      · rcases attained with same | ⟨x, hx, same⟩
        · refine either.imp same.trans fun last => ⟨c, List.mem_cons_self, same.trans last⟩
        · exact Or.inr ⟨x, List.mem_cons_of_mem c hx, same⟩
      · exact List.forall_mem_cons.mpr ⟨through _ hc right, largest⟩
  obtain ⟨scale, folded, attained, least, largest, finite'⟩ := fold 1 one
  exact ⟨scale, congrArg (tolerance * ·) folded, ⟨attained, least, largest⟩, finite'⟩

end

/-! ## Valleys -/

/-- The rank of the magnitude of sample `k`. -/
def height {L : Type} (rank : K → L) (samples : List (Sample K)) (k : ℕ) : L :=
  rank (magnitude ((samples[k]?.map Prod.snd).getD 0))

section

variable [BEq K] [Finiteness K] {L : Type} [LinearOrder L] {rank : K → L}
  (ranked : Domain.Ranked rank) {samples : List (Sample K)}
  (finite : ∀ s ∈ samples, Finiteness.isFinite (magnitude s.2) = true)
include ranked finite

end

end Singularity

end JetForm
