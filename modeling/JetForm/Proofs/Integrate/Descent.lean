import Mathlib.Tactic.Module
import JetForm.Proofs.Integrate.Strides
import JetForm.Proofs.Numerics.Vectors

/-! # Final-value problems run backwards

    A final-value problem is solved in reflected time, where it is an
    initial-value problem for the reflected field.  Over exact scalars this is
    nothing but the integration of the field itself with steps of negative size,
    from the right end down through the output times and the breakpoints.

    For a single explicit step this is an induction on the stages: each stage of
    the reflected field is the negative of the stage of the field at the
    reflected time.  For a run it is an induction on the steps. -/

namespace JetForm

/-! ## One step -/

namespace Tableau

section

variable {K V : Type} [Field K] [LinearOrder K] [AddCommGroup V] [Module K V]

/-- Going along negative stages is going back along the stages. -/
theorem addWeighted_neg (h : K) (y : V) (weights : List K) (ks : List V) :
    addWeighted (· * h) y weights (ks.map (-·)) = addWeighted (· * -h) y weights ks := by
  have same : ∀ w : K, ∀ k : V, (w * h) • -k = (w * -h) • k := fun w k => by module
  simp only [addWeighted, List.zip_map_right, List.foldl_map, Prod.map_fst, Prod.map_snd, id_eq,
    same]

/-- A weighted sum of negative stages is the negative of the sum. -/
theorem addWeighted_id_neg (s : V) (weights : List K) (ks : List V) :
    addWeighted id (-s) weights (ks.map (-·)) = -addWeighted id s weights ks := by
  simp only [addWeighted, List.zip_map_right, List.foldl_map, Prod.map_fst, Prod.map_snd, id_eq]
  induction weights.zip ks generalizing s with
  | nil => rfl
  | cons weighted rest ih =>
    rw [List.foldl_cons, List.foldl_cons, ← ih]
    congr 1
    split_ifs with hzero
    · rfl
    · module

variable {a b t h : K} {y : V} {f : K → V → V}

theorem stageValues_reflect (stages : List (List K × K)) (ks : List V) :
    stageValues (Steps.reflectField a b f) (Steps.reflect a b t) y h stages (ks.map (-·)) =
      (stageValues f t y (-h) stages ks).map (-·) := by
  induction stages generalizing ks with
  | nil => rfl
  | cons stage rest ih =>
    obtain ⟨row, c⟩ := stage
    have time : Steps.reflect a b (Steps.reflect a b t + c * h) = t + c * -h := by
      unfold Steps.reflect
      ring
    rw [stageValues, stageValues, ← ih, List.map_append, addWeighted_neg, Steps.reflectField, time]
    rfl

/-- A step of the reflected field is a step of the field in the other direction. -/
theorem step_reflect (tab : Tableau K) :
    tab.step (Steps.reflectField a b f) (Steps.reflect a b t) y h = tab.step f t y (-h) := by
  have stages := stageValues_reflect (a := a) (b := b) (t := t) (h := h) (y := y) (f := f)
    (tab.a.zip tab.c) []
  have sum := addWeighted_id_neg (0 : V) tab.b (stageValues f t y (-h) (tab.a.zip tab.c) [])
  rw [List.map_nil] at stages
  rw [neg_zero] at sum
  rw [step, step, stages, sum]
  module

end

end Tableau

namespace Steps

/-! ## Descents -/

section

variable {K σ : Type} [Field K] [LinearOrder K]

/-- Steps of negative size that lead from the state `y` at `t` down to the state
    `z` at `stop`.  All of them are full but the last one, which ends at `stop`. -/
inductive Descent (step : Stepper K σ) (size stop : K) : K → σ → σ → Prop
  | arrived (y : σ) : Descent step size stop stop y y
  | further {t : K} {y z : σ} (above : stop < t)
      (rest : Descent step size stop (t - min size (t - stop)) (step t y (-min size (t - stop)))
        z) :
      Descent step size stop t y z

/-- Descents from one time of a list to the next, each from the state where the
    one before ended. -/
inductive Descents (step : Stepper K σ) (size : K) : K → σ → List (K × σ) → Prop
  | done (t : K) (y : σ) : Descents step size t y []
  | next {t stop : K} {y z : σ} {rows : List (K × σ)} (first : Descent step size stop t y z)
      (later : Descents step size stop z rows) :
      Descents step size t y ((stop, z) :: rows)

variable [IsStrictOrderedRing K] {advance step : Stepper K σ} {size a b : K}

theorem reflect_lt_reflect {s t : K} : reflect a b s < reflect a b t ↔ t < s := by
  unfold reflect
  constructor <;> intro h <;> linarith

/-- A run in reflected time is a descent. -/
theorem run_descent (hsize : 0 < size)
    (opposite : ∀ t y h, advance (reflect a b t) y h = step t y (-h)) {stop : K} {budget : Nat}
    {t : K} {y z : σ} (hle : stop ≤ t)
    (hrun : run advance size (reflect a b stop) budget (reflect a b t) y =
      some (reflect a b stop, z)) :
    Descent step size stop t y z := by
  induction budget generalizing t y with
  | zero =>
    rcases hle.lt_or_eq with hlt | rfl
    · rw [run, if_pos (reflect_lt_reflect.mpr hlt)] at hrun
      cases hrun
    · rw [run_of_le le_rfl] at hrun
      obtain rfl : y = z := by simpa using hrun
      exact .arrived y
  | succ budget ih =>
    rcases hle.lt_or_eq with hlt | rfl
    · have hlt' := reflect_lt_reflect (a := a) (b := b).mpr hlt
      -- the steps of the mirrored run are as long as those downwards
      have hstep : stepSize size (reflect a b t) (reflect a b stop) = min size (t - stop) := by
        rw [stepSize_eq_min hsize hlt', min_comm]
        congr 1
        unfold reflect
        ring
      have htime : reflect a b t + min size (t - stop) =
          reflect a b (t - min size (t - stop)) := by
        unfold reflect
        ring
      rw [run_of_lt hlt', hstep, htime, opposite] at hrun
      refine .further hlt (ih ?_ hrun)
      linarith [min_le_right size (t - stop)]
    · rw [run_of_le le_rfl] at hrun
      obtain rfl : y = z := by simpa using hrun
      exact .arrived y

/-- A history in reflected time consists of descents. -/
theorem history_descents (hsize : 0 < size)
    (opposite : ∀ t y h, advance (reflect a b t) y h = step t y (-h)) {budget : K → K → Nat}
    (enough : Suffices size budget) {start : K} {times : List K} {y : σ} {saved : List (K × σ)}
    (sorted : (reflect a b start :: times).Pairwise (· ≤ ·))
    (hsaved : history advance size budget (reflect a b start) y times = some saved) :
    Descents step size start y (saved.map fun row => (reflect a b row.1, row.2)) := by
  induction times generalizing start y saved with
  | nil =>
    cases hsaved
    exact .done start y
  | cons stop rest ih =>
    obtain ⟨first, sorted⟩ := List.pairwise_cons.mp sorted
    have hle : reflect a b start ≤ stop := first stop (by simp)
    obtain ⟨z, hrun⟩ := run_reaches advance hsize (enough _ stop) hle y
    rw [history_cons, hrun, Option.bind_some] at hsaved
    obtain ⟨later, hlater, rfl⟩ := Option.map_eq_some_iff.mp hsaved
    have htime : reflect a b (reflect a b stop) = stop := reflect_reflect a b stop
    have hdown : reflect a b stop ≤ start := by
      unfold reflect at hle ⊢
      linarith
    rw [← htime] at hrun sorted hlater
    exact .next (run_descent hsize opposite hdown hrun) (ih sorted hlater)

end

/-! ## Strict requests -/

section

variable {K : Type} [LinearOrder K]

/-- Times that increase strictly are determined by their members. -/
theorem increasing_ext {times others : List K} (increasing : times.Pairwise (· < ·))
    (increasing' : others.Pairwise (· < ·)) (same : ∀ t, t ∈ times ↔ t ∈ others) :
    times = others := by
  have nodup : ∀ {times : List K}, times.Pairwise (· < ·) → times.Nodup :=
    fun h => h.imp fun hlt => hlt.ne
  have perm := (List.perm_ext_iff_of_nodup (nodup increasing) (nodup increasing')).mpr same
  exact perm.eq_of_pairwise (fun _ _ _ _ h h' => (h.asymm h').elim) increasing increasing'

/-- If no time is requested twice, none is served twice. -/
theorem stops_increasing {a b : K} {rest times : List K} (increasing : (a :: rest).Pairwise (· < ·))
    (last : (a :: rest).getLast? = some b) (strict : times.Pairwise (· < ·)) :
    (a :: stops (some times) a rest).Pairwise (· < ·) := by
  have sorted : (a :: stops (some times) a rest).Pairwise (· ≤ ·) :=
    stops_sorted (strict.imp le_of_lt) increasing
  have once : (a :: stops (some times) a rest).Nodup := by
    refine List.nodup_cons.mpr ⟨fun ha => ?_, List.nodup_iff_count_le_one.mpr fun t => ?_⟩
    · rcases (mem_stops increasing last).mp ha with ha | ha
      · exact ((List.pairwise_cons.mp increasing).1 a ha).false
      · exact ha.1.false
    · have single : times.count t ≤ 1 :=
        List.nodup_iff_count_le_one.mp (strict.imp fun h => h.ne) t
      rw [count_stops times t increasing last]
      split_ifs <;> omega
  exact sorted.imp₂ (fun _ _ hle hne => hle.lt_of_ne hne) once

/-- Then the served times are the full grid. -/
theorem stops_eq_fullGrid {a b : K} {rest times : List K}
    (increasing : (a :: rest).Pairwise (· < ·)) (last : (a :: rest).getLast? = some b)
    (within : Within a b times) (strict : times.Pairwise (· < ·)) :
    a :: stops (some times) a rest = fullGrid (some times) (a :: rest) :=
  increasing_ext (stops_increasing increasing last strict) (Domain.sortPoints_increasing _)
    fun _ => Iff.symm (mem_fullGrid increasing last within)

end

/-- The full grid in reflected time. -/
theorem fullGrid_mirror {K : Type} [Field K] [LinearOrder K] [IsStrictOrderedRing K] (a b : K)
    (times points : List K) :
    fullGrid (some (mirror a b times)) (mirror a b points) =
      mirror a b (fullGrid (some times) points) := by
  refine increasing_ext (Domain.sortPoints_increasing _)
    (mirror_increasing a b (Domain.sortPoints_increasing _)) fun t => ?_
  simp only [fullGrid, mem_mirror, Domain.mem_sortPoints, List.mem_append, Option.getD_some]

end Steps

namespace Solve

open Steps

variable {K : Type} {n : Nat} [Field K] [LinearOrder K]

/-! ## Solutions -/

/-- The rows of an explicit method do not depend on the number of failures. -/
theorem forward_rows_explicit (N : Numerics K) (name : String) (tableau : Tableau K)
    (f : K → Vector K n → Vector K n) (size : K) (budget : K → K → Nat)
    (requested : Option (List K)) (points : List K) (y : Vector K n) :
    (forward N (.explicit name tableau) f size budget requested points y).map Solution.rows =
      (onDomain (tableau.step f) size budget requested points y).map (select requested) := by
  have same : ∀ t (y : Vector K n × Nat) h,
      ((Method.explicit name tableau).advance N f t y h).1 = tableau.step f t y.1 h :=
    fun _ _ _ => rfl
  rw [forward, ← onDomain_map same requested points (y, 0), Option.map_map, Option.map_map]
  rfl

/-- Rows that are selected in reflected time are selected at the requested times. -/
theorem reflectRows_select {σ : Type} (a b : K) (times : List K) (rows : List (K × σ)) :
    reflectRows a b (select (some (mirror a b times)) rows) =
      ((rows.map fun row => (reflect a b row.1, row.2)).filter fun row => row.1 ∈ times).reverse := by
  simp only [reflectRows, select, List.filter_map, ← List.map_reverse, Function.comp_def,
    List.contains_eq_mem, mem_mirror]

variable [IsStrictOrderedRing K]

/-- The solution of a final-value problem, in terms of one history in reflected
    time along the full grid. -/
theorem backward_rows_explicit (N : Numerics K) (name : String) (tableau : Tableau K)
    (f : K → Vector K n → Vector K n) {size : K} {budget : K → K → Nat} (hsize : 0 < size)
    (enough : Suffices size budget) {points times : List K} {a b : K}
    (increasing : points.Pairwise (· < ·)) (first : points.head? = some a)
    (last : points.getLast? = some b) (within : Within a b times) (strict : times.Pairwise (· < ·))
    (y : Vector K n) :
    ∃ s saved later,
      backward N (.explicit name tableau) f size budget (some times) points y = some s ∧
      s.rows = reflectRows a b (select (some (mirror a b times)) ((a, y) :: saved)) ∧
      history (tableau.step (reflectField a b f)) size budget a y later = some saved ∧
      saved.map Prod.fst = later ∧ a :: later = mirror a b (fullGrid (some times) points) := by
  obtain ⟨rest, hrest⟩ := List.head?_eq_some_iff.mp (head?_mirror (a := a) last)
  have increasing' := mirror_increasing a b increasing
  have last' := getLast?_mirror (b := b) first
  have grid := fullGrid_mirror a b times points
  rw [hrest] at increasing' last' grid
  obtain ⟨saved, hsaved, hrows, htimes⟩ := onDomain_saves (tableau.step (reflectField a b f)) hsize
    enough (some (mirror a b times)) within.mirror.sorted increasing' y
  have solved := forward_rows_explicit N name tableau (reflectField a b f) size budget
    (some (mirror a b times)) (a :: rest) y
  rw [hrows, Option.map_some] at solved
  obtain ⟨s, hs, hselect⟩ := Option.map_eq_some_iff.mp solved
  refine ⟨{ s with rows := reflectRows a b s.rows }, saved, _, ?_, ?_, hsaved, htimes, ?_⟩
  · rw [← hrest] at hs
    simp only [backward, first, last]
    exact congrArg _ hs
  · rw [← hselect]
  · rw [← grid]
    exact stops_eq_fullGrid increasing' last' within.mirror (mirror_increasing a b strict)

/-- **A final-value problem is integrated backwards.**  For an explicit method
    and requested times that increase strictly, the solution reports exactly
    these times.  Its states are those of the field itself, integrated with
    negative steps from the given state at the right end down through all
    breakpoints and requested times. -/
theorem backward_descends [Finiteness K] (N : Numerics K) (name : String) (tableau : Tableau K)
    (f : K → Vector K n → Vector K n) {size : K} {budget : K → K → Nat} (hsize : 0 < size)
    (enough : Suffices size budget) (d : Domain K) {times : List K}
    (accepted : checkTimes d (some times) = .ok ()) (strict : times.Pairwise (· < ·))
    (y : Vector K n) :
    ∃ s rows,
      backward N (.explicit name tableau) f size budget (some times) d.points y = some s ∧
      Descents (tableau.step f) size d.right y rows ∧
      d.right :: rows.map Prod.fst = (fullGrid (some times) d.points).reverse ∧
      s.rows = (((d.right, y) :: rows).filter fun row => row.1 ∈ times).reverse ∧
      s.rows.map Prod.fst = times ∧
      (d.right ∈ times → s.rows.getLast? = some (d.right, y)) := by
  have within : Within d.left d.right times := checkTimes_iff.mp accepted
  have first : d.points.head? = some d.left := List.head?_eq_some_head d.points_ne_nil
  have last : d.points.getLast? = some d.right := List.getLast?_eq_some_getLast d.points_ne_nil
  obtain ⟨s, saved, later, hs, hrows, hsaved, htimes, hgrid⟩ := backward_rows_explicit N name
    tableau f hsize enough d.points_increasing first last within strict y
  rw [reflectRows_select, List.map_cons, reflect_start] at hrows
  refine ⟨s, saved.map fun row => (reflect d.left d.right row.1, row.2), hs, ?_, ?_, hrows, ?_, ?_⟩
  · have sorted : (d.left :: later).Pairwise (· ≤ ·) :=
      hgrid ▸ mirror_sorted _ _ ((Domain.sortPoints_increasing _).imp le_of_lt)
    exact history_descents hsize (fun _ _ _ => tableau.step_reflect) enough
      (by rwa [reflect_end]) (by rwa [reflect_end])
  · have back : (d.left :: later).map (reflect d.left d.right) =
        (fullGrid (some times) d.points).reverse := by
      rw [hgrid, mirror, List.map_reverse, List.map_map]
      simp [Function.comp_def]
    rw [← back, List.map_cons, reflect_start, ← htimes]
    simp
  · -- No time is requested twice, so that none is lost.
    obtain ⟨s', hs', answers⟩ := backward_answers N (.explicit name tableau) f hsize enough
      d.points_increasing first last within y
    obtain rfl : s = s' := Option.some.inj (hs.symm.trans hs')
    have single := List.nodup_iff_count_le_one.mp (strict.imp fun h => h.ne)
    exact (answers.eq_iff within.sorted).mpr fun p _ => single p
  · intro requested
    rw [hrows, List.getLast?_reverse, List.filter_cons, if_pos (by simpa using requested)]
    rfl

/-- Three requests on two pieces, the last of them at the right end. -/
theorem backward_descends_halves :
    ∃ s rows,
      backward rationalNumerics .heun (fun t y => t • y) (1 / 3)
        (fun a b => ⌈(b - a) / (1 / 3)⌉₊) (some [1 / 4, 1 / 2, 1]) halves.points #v[1] = some s ∧
      Descents (Tableau.heun.step fun t y => t • y) (1 / 3) halves.right #v[1] rows ∧
      halves.right :: rows.map Prod.fst =
        (fullGrid (some [1 / 4, 1 / 2, 1]) halves.points).reverse ∧
      s.rows = (((halves.right, #v[1]) :: rows).filter
        fun row => row.1 ∈ [1 / 4, 1 / 2, 1]).reverse ∧
      s.rows.map Prod.fst = [1 / 4, 1 / 2, 1] ∧
      (halves.right ∈ [1 / 4, 1 / 2, 1] → s.rows.getLast? = some (halves.right, #v[1])) :=
  backward_descends rationalNumerics "Heun" .heun (fun t y => t • y) (by norm_num)
    (suffices_ceil (by norm_num)) halves
    (checkTimes_iff.mpr ⟨by decide +kernel, by decide +kernel, by decide +kernel⟩)
    (by decide +kernel) #v[1]

end Solve

end JetForm
