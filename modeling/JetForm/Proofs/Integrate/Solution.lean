import Mathlib.Data.List.Count
import JetForm.Solve
import JetForm.Proofs.Integrate.Pieces

/-! # Rows of a solution

    Over exact scalars, how often does a solution report each requested time?
    Repetitions of a breakpoint are lost, for the end of a piece is saved once;
    repetitions of any other time are kept.  The count is the same whether time
    runs forwards or backwards: reflection exchanges the two ends and keeps the
    order of everything that is read in reverse. -/

namespace JetForm

namespace Steps

/-! ## Reflection -/

section

variable {K : Type} [Field K]

/-- Times in reflected time, in increasing order again. -/
def mirror (a b : K) (times : List K) : List K :=
  (times.map (reflect a b)).reverse

@[simp] theorem reflect_reflect (a b t : K) : reflect a b (reflect a b t) = t := by
  simp [reflect]

@[simp] theorem reflect_start (a b : K) : reflect a b a = b := by
  simp [reflect]

@[simp] theorem reflect_end (a b : K) : reflect a b b = a := by
  simp [reflect]

theorem reflect_injective (a b : K) : Function.Injective (reflect a b) :=
  Function.LeftInverse.injective (reflect_reflect a b)

theorem reflectRows_times {V : Type} (a b : K) (rows : List (K × V)) :
    (reflectRows a b rows).map Prod.fst = mirror a b (rows.map Prod.fst) := by
  simp [reflectRows, mirror, Function.comp_def]

theorem mem_mirror {a b t : K} {times : List K} : t ∈ mirror a b times ↔ reflect a b t ∈ times := by
  rw [mirror, List.mem_reverse, List.mem_map]
  constructor
  · rintro ⟨s, hs, rfl⟩
    rwa [reflect_reflect]
  · intro h
    exact ⟨reflect a b t, h, reflect_reflect a b t⟩

theorem head?_mirror {a b : K} {times : List K} (last : times.getLast? = some b) :
    (mirror a b times).head? = some a := by
  simp [mirror, last]

theorem getLast?_mirror {a b : K} {times : List K} (first : times.head? = some a) :
    (mirror a b times).getLast? = some b := by
  simp [mirror, first]

end

section

variable {K : Type} [Field K] [LinearOrder K]

theorem count_mirror (a b t : K) (times : List K) :
    (mirror a b times).count t = times.count (reflect a b t) := by
  rw [mirror, List.count_reverse,
    ← List.count_map_of_injective times (reflect a b) (reflect_injective a b), reflect_reflect]

variable [IsStrictOrderedRing K]

theorem mirror_increasing (a b : K) {times : List K} (increasing : times.Pairwise (· < ·)) :
    (mirror a b times).Pairwise (· < ·) := by
  rw [mirror, List.pairwise_reverse, List.pairwise_map]
  exact increasing.imp fun h => sub_lt_sub_left h (a + b)

theorem mirror_sorted (a b : K) {times : List K} (sorted : times.Pairwise (· ≤ ·)) :
    (mirror a b times).Pairwise (· ≤ ·) := by
  rw [mirror, List.pairwise_reverse, List.pairwise_map]
  exact sorted.imp fun h => sub_le_sub_left h (a + b)

theorem Within.mirror {a b : K} {times : List K} (within : Within a b times) :
    Within a b (mirror a b times) where
  sorted := mirror_sorted a b within.sorted
  above t ht := by
    have h := within.below _ (mem_mirror.mp ht)
    unfold reflect at h
    linarith
  below t ht := by
    have h := within.above _ (mem_mirror.mp ht)
    unfold reflect at h
    linarith

end

/-! ## Answers to a request -/

section

variable {K : Type} [LinearOrder K]

/-- The times that are reported for a request on a domain: in order, a
    breakpoint at most once, any other time as often as it is requested. -/
structure Answers (points times reported : List K) : Prop where
  sorted : reported.Pairwise (· ≤ ·)
  count : ∀ t, reported.count t = if t ∈ points then min 1 (times.count t) else times.count t

/-- The request is answered time by time unless it repeats a breakpoint. -/
theorem Answers.eq_iff {points times reported : List K} (h : Answers points times reported)
    (sorted : times.Pairwise (· ≤ ·)) :
    reported = times ↔ ∀ p ∈ points, times.count p ≤ 1 := by
  constructor
  · rintro rfl p hp
    have hcount := h.count p
    rw [if_pos hp] at hcount
    omega
  · intro single
    have perm : reported.Perm times := by
      refine List.perm_iff_count.mpr fun t => ?_
      rw [h.count t]
      split_ifs with ht
      · exact min_eq_right (single t ht)
      · rfl
    exact perm.eq_of_pairwise (fun _ _ _ _ => le_antisymm) h.sorted sorted

/-- Choosing the requested ones among the served times answers the request. -/
theorem stops_answer {a b : K} {rest times : List K} (increasing : (a :: rest).Pairwise (· < ·))
    (last : (a :: rest).getLast? = some b) (within : Within a b times) :
    Answers (a :: rest) times ((a :: stops (some times) a rest).filter (times.contains ·)) where
  sorted := (stops_sorted within.sorted increasing).filter _
  count t := by
    by_cases ht : t ∈ times
    · have once : 1 ≤ times.count t := List.count_pos_iff.mpr ht
      have ha : a ∉ rest := fun h => ((List.pairwise_cons.mp increasing).1 a h).false
      have hb : b ∈ a :: rest := List.mem_of_getLast? last
      rw [List.count_filter (by simpa using ht), List.count_cons,
        count_stops times t increasing last]
      rcases (within.above t ht).eq_or_lt with rfl | hat
      · simp [ha, once]
      · by_cases hrest : t ∈ rest
        · simp [hat.ne, hrest, once]
        · have htb : t < b := by
            refine (within.below t ht).lt_of_ne fun heq => hrest ?_
            exact (List.mem_cons.mp (heq ▸ hb)).resolve_left hat.ne'
          simp [hat.ne, hat.ne', hrest, hat, htb]
    · have none_left : t ∉ (a :: stops (some times) a rest).filter (times.contains ·) := by
        simp [List.mem_filter, ht]
      rw [List.count_eq_zero.mpr none_left, List.count_eq_zero.mpr ht]
      simp

end

/-- A request that is answered in reflected time is answered. -/
theorem Answers.mirror {K : Type} [Field K] [LinearOrder K] [IsStrictOrderedRing K] {a b : K}
    {points times reported : List K} (h : Answers (mirror a b points) (mirror a b times) reported) :
    Answers points times (mirror a b reported) where
  sorted := mirror_sorted a b h.sorted
  count t := by
    rw [count_mirror, h.count, count_mirror, reflect_reflect]
    simp only [mem_mirror, reflect_reflect]

end Steps

namespace Solve

open Steps

/-! ## Accepted requests -/

section

variable {K : Type} [LinearOrder K]

theorem head?_any_lt_eq_false {a : K} {times : List K} (sorted : times.Pairwise (· ≤ ·)) :
    times.head?.any (· < a) = false ↔ ∀ t ∈ times, a ≤ t := by
  cases times with
  | nil => simp
  | cons t rest =>
    have later : ∀ s ∈ rest, t ≤ s := (List.pairwise_cons.mp sorted).1
    simpa using fun hat s hs => hat.trans (later s hs)

theorem getLast?_any_lt_eq_false {b : K} {times : List K} (sorted : times.Pairwise (· ≤ ·)) :
    times.getLast?.any (b < ·) = false ↔ ∀ t ∈ times, t ≤ b := by
  cases hlast : times.getLast? with
  | none => simp [List.getLast?_eq_none_iff.mp hlast]
  | some t =>
    have earlier : ∀ s ∈ times, s ≤ t := le_getLast sorted hlast
    have ht : t ∈ times := List.mem_of_getLast? hlast
    simpa using ⟨fun htb s hs => (earlier s hs).trans htb, fun h => h t ht⟩

/-- A request is accepted if it is in order and inside the domain. -/
theorem checkTimes_iff [Finiteness K] {d : Domain K} {requested : Option (List K)} :
    checkTimes d requested = .ok () ↔ Within d.left d.right (requested.getD []) := by
  cases requested with
  | none => simpa [checkTimes] using ⟨fun _ => ⟨.nil, by simp, by simp⟩, fun _ => rfl⟩
  | some times =>
    have tests : checkTimes d (some times) =
        if unsorted times then .error .outputUnsorted
        else if times.head?.any (· < d.left) || times.getLast?.any (d.right < ·) then
          .error .outputOutsideDomain
        else .ok () := by
      simp only [checkTimes]
      split_ifs <;> rfl
    rw [tests, Option.getD_some]
    by_cases sorted : times.Pairwise (· ≤ ·)
    · have inside : (times.head?.any (· < d.left) || times.getLast?.any (d.right < ·)) = false ↔
          Within d.left d.right times := by
        rw [Bool.or_eq_false_iff, head?_any_lt_eq_false sorted, getLast?_any_lt_eq_false sorted]
        exact ⟨fun h => ⟨sorted, h.1, h.2⟩, fun h => ⟨h.above, h.below⟩⟩
      rw [← inside, unsorted_eq_false_iff.mpr sorted, if_neg Bool.false_ne_true]
      split_ifs with h <;> simp [h]
    · have hunsorted : unsorted times = true := by
        rw [← Bool.not_eq_false, unsorted_eq_false_iff]
        exact sorted
      simpa [hunsorted] using fun h : Within d.left d.right times => sorted h.sorted

end

section

variable {K : Type} {n : Nat} [Field K] [LinearOrder K] [IsStrictOrderedRing K]

/-! ## Both directions of time -/

variable (N : Numerics K) (method : Method K n) (f : K → Vector K n → Vector K n) {size : K}
  {budget : K → K → Nat}

theorem forward_answers (hsize : 0 < size) (enough : Suffices size budget) {points times : List K}
    {a b : K} (increasing : points.Pairwise (· < ·)) (first : points.head? = some a)
    (last : points.getLast? = some b) (within : Within a b times) (y : Vector K n) :
    ∃ s, forward N method f size budget (some times) points y = some s ∧
      Answers points times (s.rows.map Prod.fst) := by
  obtain ⟨rest, rfl⟩ := List.head?_eq_some_iff.mp first
  obtain ⟨saved, -, hrows, htimes⟩ := onDomain_saves (method.advance N f) hsize enough
    (some times) within.sorted increasing (y, 0)
  refine ⟨_, by rw [forward, hrows]; rfl, ?_⟩
  have row_times : (((a, y, 0) :: saved).map Prod.fst) = a :: stops (some times) a rest := by
    rw [List.map_cons, htimes]
  rw [select_times, List.map_map]
  -- Leaving out the number of failures keeps the times.
  show Answers _ _ ((((a, y, 0) :: saved).map Prod.fst).filter (times.contains ·))
  rw [row_times]
  exact stops_answer increasing last within

theorem backward_answers (hsize : 0 < size) (enough : Suffices size budget) {points times : List K}
    {a b : K} (increasing : points.Pairwise (· < ·)) (first : points.head? = some a)
    (last : points.getLast? = some b) (within : Within a b times) (y : Vector K n) :
    ∃ s, backward N method f size budget (some times) points y = some s ∧
      Answers points times (s.rows.map Prod.fst) := by
  obtain ⟨s, hs, answers⟩ := forward_answers N method (reflectField a b f) hsize enough
    (mirror_increasing a b increasing) (head?_mirror last) (getLast?_mirror first) within.mirror y
  refine ⟨{ s with rows := reflectRows a b s.rows }, ?_, ?_⟩
  · simp only [backward, first, last]
    exact congrArg _ hs
  · rw [reflectRows_times]
    exact answers.mirror

/-- Every accepted request has a solution, in either direction of time, whose
    times are the requested ones but for repetitions of breakpoints, which are
    dropped.  So all requested times are reported, entry by entry, exactly if no
    breakpoint is requested twice. -/
theorem accepted_times [Finiteness K] (hsize : 0 < size) (enough : Suffices size budget)
    (d : Domain K) {times : List K} (accepted : checkTimes d (some times) = .ok ())
    (y : Vector K n) :
    (∃ s, forward N method f size budget (some times) d.points y = some s ∧
      Answers d.points times (s.rows.map Prod.fst) ∧
      (s.rows.map Prod.fst = times ↔ ∀ p ∈ d.points, times.count p ≤ 1)) ∧
    (∃ s, backward N method f size budget (some times) d.points y = some s ∧
      Answers d.points times (s.rows.map Prod.fst) ∧
      (s.rows.map Prod.fst = times ↔ ∀ p ∈ d.points, times.count p ≤ 1)) := by
  have within := checkTimes_iff.mp accepted
  have first : d.points.head? = some d.left := List.head?_eq_some_head d.points_ne_nil
  have last : d.points.getLast? = some d.right := List.getLast?_eq_some_getLast d.points_ne_nil
  obtain ⟨s, hs, answers⟩ := forward_answers N method f hsize enough d.points_increasing first last
    within y
  obtain ⟨s', hs', answers'⟩ := backward_answers N method f hsize enough d.points_increasing first
    last within y
  exact ⟨⟨s, hs, answers, answers.eq_iff within.sorted⟩,
    ⟨s', hs', answers', answers'.eq_iff within.sorted⟩⟩

end

/-! ## A repeated start -/

instance finitenessRat : Finiteness ℚ := ⟨fun _ => true⟩

/-- The unit interval with a breakpoint in the middle. -/
def halves : Domain ℚ :=
  ⟨[0, 1 / 2, 1], by decide, by decide, by decide +kernel⟩

/-- The start of the unit interval, twice, and its end. -/
theorem halves_accepts : checkTimes halves (some [0, 0, 1]) = .ok () :=
  checkTimes_iff.mpr ⟨by decide +kernel, by decide +kernel, by decide +kernel⟩

/-- A rational stand-in for methods that solve no equations. -/
def rationalNumerics : Numerics ℚ :=
  ⟨fun _ => 0, fun _ b => b, 0⟩

theorem accepted_times_halves :
    (∃ s, forward rationalNumerics .forwardEuler (fun _ y => y) (1 / 4)
        (fun a b => ⌈(b - a) / (1 / 4)⌉₊) (some [0, 0, 1]) halves.points #v[1] = some s ∧
      Answers halves.points [0, 0, 1] (s.rows.map Prod.fst) ∧
      (s.rows.map Prod.fst = [0, 0, 1] ↔ ∀ p ∈ halves.points, [0, 0, 1].count p ≤ 1)) ∧
    (∃ s, backward rationalNumerics .forwardEuler (fun _ y => y) (1 / 4)
        (fun a b => ⌈(b - a) / (1 / 4)⌉₊) (some [0, 0, 1]) halves.points #v[1] = some s ∧
      Answers halves.points [0, 0, 1] (s.rows.map Prod.fst) ∧
      (s.rows.map Prod.fst = [0, 0, 1] ↔ ∀ p ∈ halves.points, [0, 0, 1].count p ≤ 1)) :=
  accepted_times rationalNumerics .forwardEuler (fun _ y => y) (by norm_num)
    (suffices_ceil (by norm_num)) halves halves_accepts #v[1]

/-- The start is requested twice and reported once. -/
theorem repeated_start_lost :
    checkTimes halves (some [0, 0, 1]) = .ok () ∧
    (forward rationalNumerics .forwardEuler (fun _ y => y) (1 / 4) (fun _ _ => 2)
      (some [0, 0, 1]) halves.points #v[1]).map (fun s => s.rows.map Prod.fst) = some [0, 1] :=
  ⟨halves_accepts, by decide +kernel⟩

end Solve

end JetForm
