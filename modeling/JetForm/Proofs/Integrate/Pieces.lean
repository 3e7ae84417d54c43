import Mathlib.Data.Rat.Floor
import Mathlib.Data.List.Count
import JetForm.Proofs.Domain
import JetForm.Proofs.Integrate.Steps

/-! # Integration piece by piece

    Integrating over a domain piece by piece is one history: its output times
    are the breakpoints and, in each piece, the requested times strictly inside.
    That history is compared with the one whose output times are the sorted
    union of breakpoints and requested times.  The two differ only in times that
    occur several times, and standing still takes no step, so every row of the
    first is a row of the second.

    A requested time that is a breakpoint is served by the end of a piece, any
    other one by the filter of its piece.  `count_stops` says how often each
    time is served. -/

namespace JetForm

namespace Steps

/-! ## Requests -/

section

variable {K : Type} [LinearOrder K]

/-- Times in order that lie between `a` and `b`. -/
structure Within (a b : K) (times : List K) : Prop where
  sorted : times.Pairwise (· ≤ ·)
  above : ∀ t ∈ times, a ≤ t
  below : ∀ t ∈ times, t ≤ b

theorem unsorted_eq_false_iff {times : List K} :
    unsorted times = false ↔ times.Pairwise (· ≤ ·) := by
  induction times with
  | nil => simp [unsorted]
  | cons a rest ih => cases rest with
    | nil => simp [unsorted]
    | cons b rest =>
      rw [unsorted, Bool.or_eq_false_iff, ih, List.pairwise_cons (l := b :: rest)]
      constructor
      · rintro ⟨hab, sorted⟩
        have hab : a ≤ b := by simpa using hab
        refine ⟨fun t ht => ?_, sorted⟩
        rcases List.mem_cons.mp ht with rfl | ht
        · exact hab
        · exact hab.trans ((List.pairwise_cons.mp sorted).1 t ht)
      · rintro ⟨first, sorted⟩
        exact ⟨by simpa using first b (by simp), sorted⟩

/-- Times in order that contain each other's first one start at the same time. -/
theorem first_eq {a b : K} {times others : List K} (sorted : (a :: times).Pairwise (· ≤ ·))
    (sorted' : (b :: others).Pairwise (· ≤ ·)) (ha : a ∈ b :: others) (hb : b ∈ a :: times) :
    a = b := by
  have first : ∀ {a b : K} {times : List K}, (a :: times).Pairwise (· ≤ ·) → b ∈ a :: times →
      a ≤ b := by
    intro a b times sorted hb
    rcases List.mem_cons.mp hb with rfl | hb
    · exact le_rfl
    · exact (List.pairwise_cons.mp sorted).1 b hb
  exact le_antisymm (first sorted hb) (first sorted' ha)

theorem le_getLast {times : List K} {b : K} (sorted : times.Pairwise (· ≤ ·))
    (last : times.getLast? = some b) : ∀ t ∈ times, t ≤ b := by
  intro t ht
  obtain ⟨early, rfl⟩ := List.getLast?_eq_some_iff.mp last
  rcases List.mem_append.mp ht with ht | ht
  · exact (List.pairwise_append.mp sorted).2.2 t ht b (by simp)
  · simp [List.mem_singleton.mp ht]

end

/-! ## The output times of all pieces -/

section

variable {K : Type} [LinearOrder K]

/-- The output times behind the first breakpoint, piece after piece. -/
def stops (requested : Option (List K)) : K → List K → List K
  | _, [] => []
  | a, b :: rest => pieceTimes requested a b ++ stops requested b rest

theorem pieceTimes_eq (requested : Option (List K)) (a b : K) :
    pieceTimes requested a b =
      (requested.getD []).filter (fun t => decide (a < t) && decide (t < b)) ++ [b] := by
  cases requested <;> rfl

theorem stops_none (a : K) (rest : List K) : stops none a rest = rest := by
  induction rest generalizing a with
  | nil => rfl
  | cons b rest ih => simp [stops, pieceTimes, ih]

theorem pieceTimes_sorted {requested : Option (List K)} {a b : K} (hab : a < b)
    (sorted : (requested.getD []).Pairwise (· ≤ ·)) :
    (a :: pieceTimes requested a b).Pairwise (· ≤ ·) := by
  rw [pieceTimes_eq, List.pairwise_cons, List.pairwise_append]
  refine ⟨fun t ht => ?_, sorted.filter _, by simp, fun t ht c hc => ?_⟩
  · rcases List.mem_append.mp ht with ht | ht
    · simp only [List.mem_filter, Bool.and_eq_true, decide_eq_true_eq] at ht
      exact ht.2.1.le
    · rw [List.mem_singleton.mp ht]
      exact hab.le
  · simp only [List.mem_filter, Bool.and_eq_true, decide_eq_true_eq] at ht
    rw [List.mem_singleton.mp hc]
    exact ht.2.2.le

theorem stops_sorted {requested : Option (List K)}
    (sorted : (requested.getD []).Pairwise (· ≤ ·)) {a : K} {rest : List K}
    (increasing : (a :: rest).Pairwise (· < ·)) :
    (a :: stops requested a rest).Pairwise (· ≤ ·) := by
  induction rest generalizing a with
  | nil => simp [stops]
  | cons b rest ih =>
    obtain ⟨first, increasing⟩ := List.pairwise_cons.mp increasing
    have piece := pieceTimes_sorted (first b (by simp)) sorted
    have later := ih increasing
    rw [pieceTimes_eq, ← List.cons_append] at piece
    rw [stops, pieceTimes_eq, List.append_assoc, List.singleton_append, ← List.cons_append]
    -- The piece ends at `b`, so nothing in it is above what comes later.
    have below : ∀ t ∈ a :: (requested.getD []).filter
        (fun t => decide (a < t) && decide (t < b)), t ≤ b := fun t ht =>
      (List.pairwise_append.mp piece).2.2 t ht b (by simp)
    refine List.pairwise_append.mpr ⟨(List.pairwise_append.mp piece).1, later, ?_⟩
    intro t ht c hc
    rcases List.mem_cons.mp hc with rfl | hc
    · exact below t ht
    · exact (below t ht).trans ((List.pairwise_cons.mp later).1 c hc)

/-- A breakpoint is served once, however often it is requested; any other time
    inside the domain as often as it is requested. -/
theorem count_stops (times : List K) (t : K) {a b : K} {rest : List K}
    (increasing : (a :: rest).Pairwise (· < ·)) (last : (a :: rest).getLast? = some b) :
    (stops (some times) a rest).count t =
      if t ∈ rest then 1 else if a < t ∧ t < b then times.count t else 0 := by
  induction rest generalizing a with
  | nil =>
    have hab : a = b := by simpa using last
    have empty : ¬(a < t ∧ t < b) := fun h => (h.1.trans h.2).ne hab
    simp [stops, empty]
  | cons c rest ih =>
    obtain ⟨first, increasing⟩ := List.pairwise_cons.mp increasing
    have hac : a < c := first c (by simp)
    have behind : ∀ s ∈ rest, c < s := (List.pairwise_cons.mp increasing).1
    have last : (c :: rest).getLast? = some b := by simpa [List.getLast?_cons_cons] using last
    have hcb : c ≤ b := le_getLast (increasing.imp le_of_lt) last c (by simp)
    have inside : (times.filter (fun t => decide (a < t) && decide (t < c))).count t =
        if a < t ∧ t < c then times.count t else 0 := by
      by_cases h : a < t ∧ t < c
      · rw [if_pos h, List.count_filter (by simp [h])]
      · rw [if_neg h, List.count_eq_zero]
        simpa [List.mem_filter] using fun _ h₁ => not_lt.mp fun h₂ => h ⟨h₁, h₂⟩
    rw [stops, pieceTimes_eq, List.count_append, List.count_append, Option.getD_some, inside,
      ih increasing last]
    rcases lt_trichotomy t c with hlt | rfl | hgt
    · have hrest : t ∉ rest := fun h => (behind t h).asymm hlt
      simp [hlt, hlt.ne, hlt.ne', hrest, hlt.asymm, hlt.trans_le hcb]
    · have hrest : t ∉ rest := fun h => (behind t h).false
      simp [hrest]
    · simp [hgt.ne, hgt.ne', hgt.asymm, hac.trans hgt, hgt]

/-- The served times are the later breakpoints and the requested times. -/
theorem mem_stops {requested : Option (List K)} {t a b : K} {rest : List K}
    (increasing : (a :: rest).Pairwise (· < ·)) (last : (a :: rest).getLast? = some b) :
    t ∈ stops requested a rest ↔ t ∈ rest ∨ a < t ∧ t < b ∧ t ∈ requested.getD [] := by
  cases requested with
  | none => simp [stops_none]
  | some times =>
    rw [← List.count_pos_iff, count_stops times t increasing last, Option.getD_some]
    split_ifs with hrest hinside
    · simp [hrest]
    · simp [hrest, hinside]
    · simpa [hrest] using fun h₁ h₂ => absurd ⟨h₁, h₂⟩ hinside

end

/-! ## Accepted times -/

section

variable {K : Type} [LinearOrder K]

/-- The output times with the start in front, unless it is the first of them. -/
def withStart (start : K) (times : List K) : List K :=
  if times.head? = some start then times else start :: times

/-- Times in order inside of the interval are accepted. -/
theorem outputTimes_within [Zero K] {size start stop : K} {times : List K} (hsize : 0 < size)
    (le : start ≤ stop) (within : Within start stop times) (ne : times ≠ []) :
    outputTimes size start stop (some times) = .ok (withStart start times) := by
  have inside : times.any (fun t => decide (t < start) || decide (stop < t)) = false := by
    simpa only [List.any_eq_false, Bool.or_eq_true, decide_eq_true_eq, not_or, not_lt] using
      fun t ht => ⟨within.above t ht, within.below t ht⟩
  obtain ⟨first, later, rfl⟩ := List.exists_cons_of_ne_nil ne
  simp only [outputTimes, hsize.not_ge, le.not_gt, inside, unsorted_eq_false_iff.mpr within.sorted]
  simp [withStart]

theorem outputTimes_eq [Zero K] {size start stop : K} {later : List K} (hsize : 0 < size)
    (sorted : (start :: later).Pairwise (· ≤ ·)) (below : ∀ t ∈ start :: later, t ≤ stop) :
    outputTimes size start stop (some (start :: later)) = .ok (start :: later) := by
  have above : ∀ t ∈ start :: later, start ≤ t := by
    simpa using (List.pairwise_cons.mp sorted).1
  rw [outputTimes_within hsize (below start (by simp)) ⟨sorted, above, below⟩ (by simp)]
  simp [withStart]

end

/-! ## The full grid -/

section

variable {K : Type} [LinearOrder K]

/-- The breakpoints and the requested times, each once. -/
def fullGrid (requested : Option (List K)) (points : List K) : List K :=
  Domain.sortPoints (points ++ requested.getD [])

/-- The full grid consists of the start and the served times. -/
theorem mem_fullGrid {requested : Option (List K)} {t a b : K} {rest : List K}
    (increasing : (a :: rest).Pairwise (· < ·)) (last : (a :: rest).getLast? = some b)
    (within : Within a b (requested.getD [])) :
    t ∈ fullGrid requested (a :: rest) ↔ t ∈ a :: stops requested a rest := by
  have hb : b ∈ a :: rest := List.mem_of_getLast? last
  rw [fullGrid, Domain.mem_sortPoints, List.mem_append, List.mem_cons, List.mem_cons,
    mem_stops increasing last]
  constructor
  · rintro (h | h)
    · exact h.imp_right .inl
    · -- A requested time is one of the ends or strictly inside.
      rcases (within.above t h).eq_or_lt with rfl | hat
      · exact .inl rfl
      · rcases (within.below t h).lt_or_eq with htb | rfl
        · exact .inr (.inr ⟨hat, htb, h⟩)
        · exact .inr (.inl (by simpa [hat.ne'] using hb))
  · rintro (h | h | h)
    · exact .inl (.inl h)
    · exact .inl (.inr h)
    · exact .inr h.2.2

theorem fullGrid_le {requested : Option (List K)} {a b : K} {rest : List K}
    (increasing : (a :: rest).Pairwise (· < ·)) (last : (a :: rest).getLast? = some b)
    (within : Within a b (requested.getD [])) : ∀ t ∈ fullGrid requested (a :: rest), t ≤ b := by
  intro t ht
  rcases List.mem_append.mp (Domain.mem_sortPoints.mp ht) with h | h
  · exact le_getLast (increasing.imp le_of_lt) last t h
  · exact within.below t h

/-- The full grid starts where the domain does. -/
theorem fullGrid_eq_cons {requested : Option (List K)} {a b : K} {rest : List K}
    (increasing : (a :: rest).Pairwise (· < ·)) (last : (a :: rest).getLast? = some b)
    (within : Within a b (requested.getD [])) :
    ∃ later, fullGrid requested (a :: rest) = a :: later := by
  have sorted : (fullGrid requested (a :: rest)).Pairwise (· < ·) := Domain.sortPoints_increasing _
  have mem := fun t => mem_fullGrid (t := t) increasing last within
  cases hgrid : fullGrid requested (a :: rest) with
  | nil =>
    have ha := (mem a).mpr (by simp)
    rw [hgrid] at ha
    cases ha
  | cons first later =>
    rw [hgrid] at sorted mem
    have served := stops_sorted within.sorted increasing
    have same : first = a := first_eq (sorted.imp le_of_lt) served ((mem first).mp (by simp))
      ((mem a).mpr (by simp))
    exact ⟨later, by rw [same]⟩

end

/-! ## One history -/

section

variable {K σ : Type} [Field K] [LinearOrder K] [IsStrictOrderedRing K]

variable {advance : Stepper K σ} {size : K} {budget : K → K → Nat}

/-- The pieces together are one history. -/
theorem pieces_eq_history (hsize : 0 < size) (enough : Suffices size budget)
    {requested : Option (List K)} (sorted : (requested.getD []).Pairwise (· ≤ ·)) {a : K}
    {rest : List K} (increasing : (a :: rest).Pairwise (· < ·)) (y : σ) :
    pieces advance size budget requested a y rest =
      history advance size budget a y (stops requested a rest) := by
  induction rest generalizing a y with
  | nil => rfl
  | cons b rest ih =>
    obtain ⟨first, increasing⟩ := List.pairwise_cons.mp increasing
    obtain ⟨saved, hsaved, htimes⟩ := history_saves advance hsize enough
      (pieceTimes_sorted (first b (by simp)) sorted) y
    have ends : (pieceTimes requested a b).getLast?.getD a = b := by simp [pieceTimes_eq]
    have zipped : (pieceTimes requested a b).zip (saved.map Prod.snd) = saved := by
      rw [← htimes, List.zip_map']
      simp
    rw [stops, history_append, ends, pieces, hsaved]
    simp only [Option.bind_some, Option.bind_eq_bind, zipped, ih increasing]
    cases history advance size budget b _ (stops requested b rest) <;> rfl

/-- A history along sorted times that repeats or leaves out no other output
    time than the first has the rows of the history along the same times. -/
theorem history_of_repeats (hsize : 0 < size) (enough : Suffices size budget) {times : List K} :
    ∀ {start : K} {grid : List K} {y : σ} {saved : List (K × σ)},
      (start :: times).Pairwise (· ≤ ·) → (start :: grid).Pairwise (· < ·) →
      (∀ t ∈ times, t ∈ start :: grid) → (∀ t ∈ grid, t ∈ times) →
      history advance size budget start y grid = some saved →
      ∃ rows, history advance size budget start y times = some rows ∧
        ∀ row ∈ rows, row ∈ (start, y) :: saved := by
  induction times with
  | nil =>
    intro start grid y saved _ _ _ _ _
    exact ⟨[], rfl, by simp⟩
  | cons stop rest ih =>
    intro start grid y saved sorted increasing among all hsaved
    obtain ⟨first, ordered⟩ := List.pairwise_cons.mp sorted
    rcases List.mem_cons.mp (among stop (by simp)) with rfl | hstop
    · -- The history stands at this time already.
      have among' : ∀ t ∈ rest, t ∈ stop :: grid := fun t ht => among t (List.mem_cons_of_mem _ ht)
      have all' : ∀ t ∈ grid, t ∈ rest := by
        intro t ht
        have later : stop < t := (List.pairwise_cons.mp increasing).1 t ht
        simpa [later.ne'] using all t ht
      obtain ⟨rows, hrows, held⟩ := ih ordered increasing among' all' hsaved
      refine ⟨(stop, y) :: rows, by rw [history_again, hrows]; rfl, ?_⟩
      simpa using held
    · -- It is the next time of the grid, for the times are sorted.
      obtain ⟨next, grid, rfl⟩ := List.exists_cons_of_ne_nil (List.ne_nil_of_mem hstop)
      obtain ⟨before, increasing⟩ := List.pairwise_cons.mp increasing
      have hnext : stop = next :=
        first_eq ordered (increasing.imp le_of_lt) hstop (all next (by simp))
      subst hnext
      have among' : ∀ t ∈ rest, t ∈ stop :: grid := by
        intro t ht
        have later : start < t :=
          (before stop (by simp)).trans_le ((List.pairwise_cons.mp ordered).1 t ht)
        simpa [later.ne'] using among t (List.mem_cons_of_mem _ ht)
      have all' : ∀ t ∈ grid, t ∈ rest := by
        intro t ht
        have later : stop < t := (List.pairwise_cons.mp increasing).1 t ht
        simpa [later.ne'] using all t (List.mem_cons_of_mem _ ht)
      obtain ⟨z, hrun⟩ := run_reaches advance hsize (enough start stop) (first stop (by simp)) y
      rw [history_cons, hrun] at hsaved
      obtain ⟨later, hlater, rfl⟩ := Option.map_eq_some_iff.mp hsaved
      obtain ⟨rows, hrows, held⟩ := ih ordered increasing among' all' hlater
      refine ⟨(stop, z) :: rows, by rw [history_cons, hrun, Option.bind_some, hrows]; rfl, ?_⟩
      intro row hrow
      rcases List.mem_cons.mp hrow with rfl | hrow
      · simp
      · exact List.mem_cons_of_mem _ (held row hrow)

/-! ## The rows of a domain -/

/-- Rows for a request keep the times that are requested. -/
theorem select_times {K σ : Type} [LinearOrder K] (times : List K) (rows : List (K × σ)) :
    (select (some times) rows).map Prod.fst = (rows.map Prod.fst).filter (times.contains ·) := by
  rw [select, List.filter_map]
  rfl

theorem mem_of_mem_select {K σ : Type} [BEq K] {requested : Option (List K)}
    {rows : List (K × σ)} {row : K × σ} (h : row ∈ select requested rows) : row ∈ rows := by
  cases requested with
  | none => exact h
  | some times => exact (List.mem_filter.mp h).1

/-- Selected rows stay in order. -/
theorem select_sorted {K σ : Type} [LinearOrder K] (requested : Option (List K))
    {rows : List (K × σ)} (sorted : (rows.map Prod.fst).Pairwise (· ≤ ·)) :
    ((select requested rows).map Prod.fst).Pairwise (· ≤ ·) := by
  cases requested with
  | none => exact sorted
  | some times =>
    rw [select_times]
    exact sorted.filter _

/-- Integrating over a domain saves a state for each served time. -/
theorem onDomain_saves (advance : Stepper K σ) (hsize : 0 < size) (enough : Suffices size budget)
    (requested : Option (List K)) (sorted : (requested.getD []).Pairwise (· ≤ ·)) {a : K}
    {rest : List K} (increasing : (a :: rest).Pairwise (· < ·)) (y : σ) :
    ∃ saved, history advance size budget a y (stops requested a rest) = some saved ∧
      onDomain advance size budget requested (a :: rest) y = some ((a, y) :: saved) ∧
      saved.map Prod.fst = stops requested a rest := by
  obtain ⟨saved, hsaved, htimes⟩ := history_saves advance hsize enough
    (stops_sorted sorted increasing) y
  refine ⟨saved, hsaved, ?_, htimes⟩
  rw [onDomain, pieces_eq_history hsize enough sorted increasing, hsaved]
  rfl

/-- Rows at the requested times that are taken from one history over the whole
    domain, whose output times are the full grid.  Its times increase strictly,
    so that a row is the state saved at its time. -/
structure FromHistory (advance : Stepper K σ) (size : K) (budget : K → K → Nat)
    (requested : Option (List K)) (a b : K) (rest : List K) (y : σ)
    (saved rows : List (K × σ)) : Prop where
  accepted : outputTimes size a b (some (fullGrid requested (a :: rest))) =
    .ok (fullGrid requested (a :: rest))
  history : history advance size budget a y (fullGrid requested (a :: rest)).tail = some saved
  history_times : ((a, y) :: saved).map Prod.fst = fullGrid requested (a :: rest)
  increasing : (((a, y) :: saved).map Prod.fst).Pairwise (· < ·)
  held : ∀ row ∈ rows, row ∈ (a, y) :: saved
  sorted : (rows.map Prod.fst).Pairwise (· ≤ ·)
  times : ∀ t, t ∈ rows.map Prod.fst ↔ t ∈ requested.getD (a :: rest)
  breakpoints : requested = none → rows.map Prod.fst = a :: rest

/-- Integrating piece by piece gives, at the requested times, the rows of the
    one history over the whole domain whose output times are the sorted union of
    breakpoints and requested times.  Without a request the rows are those at
    the breakpoints. -/
theorem onDomain_refines_history (hsize : 0 < size) (enough : Suffices size budget)
    {requested : Option (List K)} {a b : K} {rest : List K}
    (increasing : (a :: rest).Pairwise (· < ·)) (last : (a :: rest).getLast? = some b)
    (within : Within a b (requested.getD [])) (y : σ) :
    ∃ saved rows,
      (onDomain advance size budget requested (a :: rest) y).map (select requested) = some rows ∧
      FromHistory advance size budget requested a b rest y saved rows := by
  have sorted := stops_sorted within.sorted increasing
  -- The history along the full grid.
  obtain ⟨later, hgrid⟩ := fullGrid_eq_cons increasing last within
  have grid_increasing : (a :: later).Pairwise (· < ·) := hgrid ▸ Domain.sortPoints_increasing _
  have grid_sorted : (a :: later).Pairwise (· ≤ ·) := grid_increasing.imp fun h => h.le
  have mem_grid : ∀ t, t ∈ a :: later ↔ t ∈ a :: stops requested a rest :=
    fun t => hgrid ▸ mem_fullGrid increasing last within
  obtain ⟨saved, hsaved, htimes⟩ := history_saves advance hsize enough grid_sorted y
  -- The history along the times that are served.
  obtain ⟨served, hserved, hrows, hstops⟩ := onDomain_saves advance hsize enough requested
    within.sorted increasing y
  have among : ∀ t ∈ stops requested a rest, t ∈ a :: later := fun t ht =>
    (mem_grid t).mpr (List.mem_cons_of_mem _ ht)
  have all : ∀ t ∈ later, t ∈ stops requested a rest := by
    intro t ht
    have hat : a < t := (List.pairwise_cons.mp grid_increasing).1 t ht
    simpa [hat.ne'] using (mem_grid t).mp (List.mem_cons_of_mem _ ht)
  obtain ⟨_, hserved', held⟩ := history_of_repeats hsize enough sorted grid_increasing among all
    hsaved
  obtain rfl : served = _ := Option.some.inj (hserved.symm.trans hserved')
  have row_times : ((a, y) :: served).map Prod.fst = a :: stops requested a rest := by
    simp [hstops]
  have grid_times : ((a, y) :: saved).map Prod.fst = a :: later := by simp [htimes]
  refine ⟨saved, select requested ((a, y) :: served), by rw [hrows]; rfl, ?_⟩
  exact {
    accepted := by
      rw [hgrid]
      exact outputTimes_eq hsize grid_sorted (hgrid ▸ fullGrid_le increasing last within)
    history := by rw [hgrid]; exact hsaved
    history_times := grid_times.trans hgrid.symm
    increasing := grid_times ▸ grid_increasing
    held := by
      intro row hrow
      rcases List.mem_cons.mp (mem_of_mem_select hrow) with rfl | hrow
      · simp
      · exact held row hrow
    sorted := select_sorted requested (row_times ▸ sorted)
    times := by
      intro t
      cases requested with
      | none => rw [select, row_times, stops_none]; rfl
      | some times =>
        rw [select_times, row_times, List.mem_filter, List.contains_iff_mem, Option.getD_some]
        have requested_served : t ∈ times → t ∈ a :: stops (some times) a rest := fun ht =>
          (mem_fullGrid increasing last within).mp
            (Domain.mem_sortPoints.mpr (List.mem_append_right _ ht))
        exact ⟨fun h => h.2, fun ht => ⟨requested_served ht, ht⟩⟩
    breakpoints := by
      rintro rfl
      rw [select, row_times, stops_none] }

/-- Three requests on two pieces, one of them at the breakpoint. -/
theorem onDomain_refines_history_halves :
    ∃ saved rows,
      (onDomain (fun t y h => y + h * (t + y)) (1 / 3 : ℚ) (fun a b => ⌈(b - a) / (1 / 3)⌉₊)
        (some [1 / 4, 1 / 2, 1 / 2]) [0, 1 / 2, 1] (1 : ℚ)).map
          (select (some [1 / 4, 1 / 2, 1 / 2])) = some rows ∧
      FromHistory (fun t y h => y + h * (t + y)) (1 / 3 : ℚ) (fun a b => ⌈(b - a) / (1 / 3)⌉₊)
        (some [1 / 4, 1 / 2, 1 / 2]) 0 1 [1 / 2, 1] (1 : ℚ) saved rows := by
  have within : Within (0 : ℚ) 1 [1 / 4, 1 / 2, 1 / 2] := ⟨by norm_num, by norm_num, by norm_num⟩
  exact onDomain_refines_history (by norm_num) (suffices_ceil (by norm_num)) (by norm_num) rfl
    within 1

end

end Steps

end JetForm
