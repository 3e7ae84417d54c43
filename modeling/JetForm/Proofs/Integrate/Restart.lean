import JetForm.Integrate.InitialValue
import JetForm.Proofs.Integrate.Pieces

/-! # Restarting a history

    A history over an interval can be cut at any output time: what comes after
    is the history over the rest, from the state that was saved there.  Its
    first row is the row at which the first part ends, so it occurs only once
    when the parts are put together. -/

namespace JetForm

namespace Steps

/-! ## Trajectories -/

section

variable {K σ : Type} [Zero K] [Add K] [Sub K] [LT K] [DecidableLT K] [LE K] [DecidableLE K] [BEq K]

/-- The rows at the output times, of which the first is saved before any step. -/
def trajectory (advance : Stepper K σ) (size : K) (budget : K → K → Nat) (start stop : K)
    (requested : Option (List K)) (y : σ) : Except Error (List (K × σ)) := do
  let times ← outputTimes size start stop requested
  match history advance size budget (times.headD start) y times.tail with
  | some rows => return (start, y) :: rows
  | none => throw .budget

theorem trajectory_of_ok {advance : Stepper K σ} {size : K} {budget : K → K → Nat} {start stop : K}
    {requested : Option (List K)} {times : List K}
    (accepted : outputTimes size start stop requested = .ok times) (y : σ) :
    trajectory advance size budget start stop requested y =
      match history advance size budget (times.headD start) y times.tail with
      | some rows => .ok ((start, y) :: rows)
      | none => .error .budget := by
  rw [trajectory, accepted]
  rfl

end

end Steps

/-- The history of a problem saves the rows of a trajectory, with the first
    state as it is given. -/
theorem InitialValueProblem.history_eq_trajectory (p : InitialValueProblem) (start stop : Float)
    (requested : Option (List Float)) (y : Tensor Float) :
    p.history start stop requested y = (do
      let times ← Steps.outputTimes p.size.toFloat start stop requested
      let total ← totalSteps p.size.toFloat start stop
      if 1 < times.length then p.check y.shape
      let rows ← Steps.trajectory p.advance p.size.toFloat (stepBudget p.size.toFloat) start stop
        requested (States.ofTensor p.field.size y)
      let saved := Trajectory.ofRows rows
      return ({ saved with states := y.entries.toList :: saved.states.tail },
        p.announcement start stop total times.length)) := by
  unfold history
  dsimp only
  cases accepted : Steps.outputTimes p.size.toFloat start stop requested with
  | error e => rfl
  | ok times =>
    rw [Steps.trajectory_of_ok accepted]
    cases totalSteps p.size.toFloat start stop with
    | error e => rfl
    | ok total =>
      show (if 1 < times.length then _ else _) = if 1 < times.length then _ else _
      cases Steps.history p.advance p.size.toFloat (stepBudget p.size.toFloat) (times.headD start)
        (States.ofTensor p.field.size y) times.tail <;> rfl

namespace Steps

/-! ## Output times -/

section

variable {K : Type} [LinearOrder K] {start stop : K} {times early late : List K}

/-- The output times behind the start. -/
def behind (start : K) (times : List K) : List K :=
  if times.head? = some start then times.tail else times

theorem withStart_eq (start : K) (times : List K) :
    withStart start times = start :: behind start times := by
  rw [withStart, behind]
  split
  next first =>
    obtain ⟨later, rfl⟩ := List.head?_eq_some_iff.mp first
    rfl
  next => rfl

theorem withStart_append (ne : early ≠ []) (late : List K) :
    withStart start (early ++ late) = withStart start early ++ late := by
  rw [withStart, withStart, List.head?_append_of_ne_nil _ ne]
  split <;> rfl

theorem behind_append (ne : early ≠ []) (late : List K) :
    behind start (early ++ late) = behind start early ++ late := by
  have whole : withStart start (early ++ late) = withStart start early ++ late :=
    withStart_append ne late
  rw [withStart_eq, withStart_eq] at whole
  exact List.tail_eq_of_cons_eq whole

theorem getLast?_withStart (ne : times ≠ []) : (withStart start times).getLast? = times.getLast? := by
  obtain ⟨first, later, rfl⟩ := List.exists_cons_of_ne_nil ne
  rw [withStart]
  split
  next => rfl
  next => rw [List.getLast?_cons_cons]

theorem Within.nil (start stop : K) : Within start stop [] :=
  ⟨.nil, by simp, by simp⟩

theorem Within.cons_start (within : Within start stop times) (le : start ≤ stop) :
    Within start stop (start :: times) where
  sorted := List.pairwise_cons.mpr ⟨within.above, within.sorted⟩
  above := List.forall_mem_cons.mpr ⟨le_rfl, within.above⟩
  below := List.forall_mem_cons.mpr ⟨le, within.below⟩

theorem Within.append {a m c : K} (first : Within a m early) (second : Within m c late)
    (am : a ≤ m) (mc : m ≤ c) : Within a c (early ++ late) where
  sorted := List.pairwise_append.mpr ⟨first.sorted, second.sorted, fun s hs t ht =>
    (first.below s hs).trans (second.above t ht)⟩
  above := List.forall_mem_append.mpr ⟨first.above, fun t ht => am.trans (second.above t ht)⟩
  below := List.forall_mem_append.mpr ⟨fun t ht => (first.below t ht).trans mc, second.below⟩

theorem Within.withStart_sorted (within : Within start stop times) :
    (withStart start times).Pairwise (· ≤ ·) := by
  rw [withStart]
  split
  next => exact within.sorted
  next => exact List.pairwise_cons.mpr ⟨within.above, within.sorted⟩

end

/-! ## Restarts -/

section

variable {K σ : Type} [Field K] [LinearOrder K] [IsStrictOrderedRing K] {size : K}
  {budget : K → K → Nat}

/-- A trajectory consists of the first row and the history behind it. -/
theorem trajectory_eq_history (advance : Stepper K σ) (hsize : 0 < size)
    (enough : Suffices size budget) {start stop : K} {times : List K} (le : start ≤ stop)
    (within : Within start stop times) (ne : times ≠ []) (y : σ) :
    ∃ saved, history advance size budget start y (behind start times) = some saved ∧
      trajectory advance size budget start stop (some times) y = .ok ((start, y) :: saved) ∧
      ((start, y) :: saved).map Prod.fst = withStart start times := by
  have sorted := within.withStart_sorted
  rw [withStart_eq] at sorted
  obtain ⟨saved, hsaved, htimes⟩ := history_saves advance hsize enough sorted y
  refine ⟨saved, hsaved, ?_, ?_⟩
  · rw [trajectory_of_ok (outputTimes_within hsize le within ne), withStart_eq]
    simp only [List.headD_cons, List.tail_cons, hsaved]
  · rw [withStart_eq, List.map_cons, htimes]

omit [IsStrictOrderedRing K] in
/-- A history goes on from its last row. -/
theorem history_append_of_last {advance : Stepper K σ} {a m : K} {y z : σ} {early : List K}
    {saved : List (K × σ)} (hsaved : history advance size budget a y early = some saved)
    (times : saved.map Prod.fst = early) (last : ((a, y) :: saved).getLast? = some (m, z))
    (late : List K) :
    history advance size budget a y (early ++ late) =
      (history advance size budget m z late).map (saved ++ ·) := by
  rw [List.getLast?_cons] at last
  have row : saved.getLast?.getD (a, y) = (m, z) := Option.some.inj last
  have time : early.getLast?.getD a = m := by
    rw [← times, List.getLast?_map, Option.getD_map Prod.fst (a, y), row]
  have state : (saved.map Prod.snd).getLast?.getD y = z := by
    rw [List.getLast?_map, Option.getD_map Prod.snd (a, y), row]
  rw [history_append, hsaved, Option.bind_some, time, state]

/-- **Restarting at an output time changes nothing.**  The rows up to `m` are
    those of the trajectory that ends there, whatever is requested later; from
    there on they are those of the trajectory that starts with the state saved
    at `m`. -/
theorem trajectory_restart (advance : Stepper K σ) (hsize : 0 < size)
    (enough : Suffices size budget) {a m : K} {p : List K} (am : a ≤ m) (early : Within a m p)
    (y : σ) :
    ∃ first z,
      trajectory advance size budget a m (some (p ++ [m])) y = .ok first ∧
      first.map Prod.fst = withStart a (p ++ [m]) ∧ first.getLast? = some (m, z) ∧
      ∀ {c : K} {q : List K}, m ≤ c → Within m c q →
        ∃ second,
          trajectory advance size budget m c (some (m :: q)) z = .ok second ∧
          second.map Prod.fst = m :: q ∧
          trajectory advance size budget a c (some (p ++ m :: q)) y = .ok (first ++ second.tail) ∧
          (first ++ second.tail).map Prod.fst = withStart a (p ++ m :: q) := by
  have whole : Within a m (p ++ [m]) := early.append ((Within.nil m m).cons_start le_rfl) am le_rfl
  have ne : p ++ [m] ≠ [] := by simp
  obtain ⟨saved, hsaved, first_ok, first_times⟩ :=
    trajectory_eq_history advance hsize enough am whole ne y
  obtain ⟨⟨t, z⟩, last⟩ : ∃ row, ((a, y) :: saved).getLast? = some row :=
    ⟨_, List.getLast?_eq_some_getLast (List.cons_ne_nil _ _)⟩
  -- The first part ends at `m`, since that is its last output time.
  have at_m : t = m := by
    have times := congrArg List.getLast? first_times
    rw [List.getLast?_map, last, getLast?_withStart ne, List.getLast?_concat] at times
    exact Option.some.inj times
  subst at_m
  refine ⟨_, z, first_ok, first_times, last, fun {c q} mc late => ?_⟩
  -- The second part starts at its first output time, so nothing is put in front.
  have restarted : Within t c (t :: q) := late.cons_start mc
  have withStart_restarted : withStart t (t :: q) = t :: q := by simp [withStart]
  have behind_restarted : behind t (t :: q) = q := by simp [behind]
  obtain ⟨later, hlater, second_ok, second_times⟩ :=
    trajectory_eq_history advance hsize enough mc restarted (List.cons_ne_nil t q) z
  rw [behind_restarted] at hlater
  rw [withStart_restarted] at second_times
  refine ⟨_, second_ok, second_times, ?_⟩
  -- The whole trajectory, whose rows are those of the two parts.
  obtain ⟨rows, hrows, whole_ok, whole_times⟩ :=
    trajectory_eq_history advance hsize enough (am.trans mc) (early.append restarted am mc) (by simp) y
  have behind_whole : behind a (p ++ t :: q) = behind a (p ++ [t]) ++ q := by
    rw [← behind_append ne, List.append_assoc, List.singleton_append]
  have saved_times : saved.map Prod.fst = behind a (p ++ [t]) := by
    rw [withStart_eq, List.map_cons] at first_times
    exact List.tail_eq_of_cons_eq first_times
  rw [behind_whole, history_append_of_last hsaved saved_times last, hlater] at hrows
  obtain rfl : saved ++ later = rows := Option.some.inj hrows
  exact ⟨whole_ok, whole_times⟩

/-- A restart in the middle of the unit interval, which is requested once more. -/
theorem trajectory_restart_half :
    Within (0 : ℚ) (1 / 2) [1 / 4] ∧ Within (1 / 2 : ℚ) 1 [1 / 2, 1] ∧
      ∃ (first second : List (ℚ × ℚ)) (z : ℚ),
        trajectory (fun t y h => y + h * (t + y)) (1 / 3) (fun a b => ⌈(b - a) / (1 / 3)⌉₊) 0 (1 / 2)
            (some [1 / 4, 1 / 2]) 1 = .ok first ∧
          first.getLast? = some (1 / 2, z) ∧
          trajectory (fun t y h => y + h * (t + y)) (1 / 3) (fun a b => ⌈(b - a) / (1 / 3)⌉₊)
            (1 / 2) 1 (some [1 / 2, 1 / 2, 1]) z = .ok second ∧
          trajectory (fun t y h => y + h * (t + y)) (1 / 3) (fun a b => ⌈(b - a) / (1 / 3)⌉₊) 0 1
            (some [1 / 4, 1 / 2, 1 / 2, 1]) 1 = .ok (first ++ second.tail) ∧
          (first ++ second.tail).map Prod.fst = [0, 1 / 4, 1 / 2, 1 / 2, 1] := by
  have early : Within (0 : ℚ) (1 / 2) [1 / 4] := ⟨by norm_num, by norm_num, by norm_num⟩
  have late : Within (1 / 2 : ℚ) 1 [1 / 2, 1] := ⟨by norm_num, by norm_num, by norm_num⟩
  obtain ⟨first, z, first_ok, -, last, restart⟩ :=
    trajectory_restart (fun t y h => y + h * (t + y)) (by norm_num)
      (suffices_ceil (by norm_num : (0 : ℚ) < 1 / 3)) (by norm_num) early 1
  obtain ⟨second, second_ok, -, whole_ok, times⟩ := restart (by norm_num) late
  exact ⟨early, late, first, second, z, first_ok, last, second_ok, whole_ok,
    times.trans (by simp [withStart])⟩

end

end Steps

end JetForm
