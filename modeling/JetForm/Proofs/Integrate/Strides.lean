import JetForm.Proofs.Integrate.Solution

/-! # The steps of a solution

    A stepper can be made to keep a record of the steps it takes.  The record
    changes nothing: without it the states are those of the run itself.

    The steps of a run form a `Path`: each of them starts where the one before
    ended, none is empty, and none is longer than the step size.  A run stops at
    every output time and at every breakpoint, so none of these times lies
    strictly inside a step. -/

namespace JetForm

namespace Steps

/-! ## Keeping a record -/

/-- A step that is taken: its start, the state there, and its length. -/
structure Stride (K σ : Type) where
  start : K
  state : σ
  length : K
  deriving DecidableEq

namespace Stride

/-- Where a step ends. -/
def stop {K σ : Type} [Add K] (s : Stride K σ) : K :=
  s.start + s.length

end Stride

/-- The stepper that also keeps a record of its steps. -/
def recorded {K σ : Type} (advance : Stepper K σ) : Stepper K (σ × List (Stride K σ)) :=
  fun t (y, kept) h => (advance t y h, kept ++ [⟨t, y, h⟩])

/-! ## Leaving out a part of the state

    If a part of the state does not influence the rest, it can be left out
    before or after a run. -/

section

variable {K σ τ : Type} [Field K] [LinearOrder K] {advance : Stepper K σ} {advance' : Stepper K τ}
  {part : σ → τ} (same : ∀ t y h, part (advance t y h) = advance' t (part y) h)
  {size : K} {budget : K → K → Nat}

include same

theorem run_map (stop : K) (budget : Nat) (t : K) (y : σ) :
    (run advance size stop budget t y).map (Prod.map id part) =
      run advance' size stop budget t (part y) := by
  induction budget generalizing t y with
  | zero =>
    unfold run
    split <;> rfl
  | succ budget ih =>
    by_cases h : t < stop
    · rw [run_of_lt h, run_of_lt h, ih, same]
    · rw [run_of_le (not_lt.mp h), run_of_le (not_lt.mp h)]
      rfl

theorem history_map (start : K) (y : σ) (times : List K) :
    (history advance size budget start y times).map (List.map (Prod.map id part)) =
      history advance' size budget start (part y) times := by
  induction times generalizing start y with
  | nil => rfl
  | cons stop rest ih =>
    rw [history_cons, history_cons, ← run_map same]
    cases run advance size stop (budget start stop) start y with
    | none => rfl
    | some last =>
      show Option.map _ (Option.map _ _) =
        Option.map _ (history advance' size budget stop (part last.2) rest)
      rw [← ih, Option.map_map, Option.map_map]
      rfl

theorem pieces_map (requested : Option (List K)) (a : K) (y : σ) (rest : List K) :
    (pieces advance size budget requested a y rest).map (List.map (Prod.map id part)) =
      pieces advance' size budget requested a (part y) rest := by
  induction rest generalizing a y with
  | nil => rfl
  | cons b rest ih =>
    simp only [pieces, ← history_map same]
    cases history advance size budget a y (pieceTimes requested a b) with
    | none => rfl
    | some saved =>
      have last : ((saved.map (Prod.map id part)).map Prod.snd).getLast?.getD (part y) =
          part ((saved.map Prod.snd).getLast?.getD y) := by
        rw [List.getLast?_map, List.getLast?_map, List.getLast?_map]
        cases saved.getLast? <;> rfl
      have states : (saved.map (Prod.map id part)).map Prod.snd =
          (saved.map Prod.snd).map part := by
        simp
      simp only [Option.bind_eq_bind, Option.map_some, Option.bind_some, last, ← ih]
      cases pieces advance size budget requested b _ rest with
      | none => rfl
      | some later =>
        simp only [Option.bind_some, Option.map_some, Option.pure_def, List.map_append, states,
          List.zip_map_right]

theorem onDomain_map (requested : Option (List K)) (points : List K) (y : σ) :
    (onDomain advance size budget requested points y).map (List.map (Prod.map id part)) =
      onDomain advance' size budget requested points (part y) := by
  cases points with
  | nil => rfl
  | cons a rest =>
    simp only [onDomain, ← pieces_map same, Option.map_map]
    rfl

end

/-! ## Paths -/

section

variable {K σ : Type} [Field K] [LinearOrder K]

/-- Steps that lead from the state `y` at `a` to the state `z` at `b`, one after
    the other. -/
inductive Path (advance : Stepper K σ) (size : K) : K → σ → K → σ → List (Stride K σ) → Prop
  | here (a : K) (y : σ) : Path advance size a y a y []
  | step {a h b : K} {y z : σ} {later : List (Stride K σ)} (pos : 0 < h) (le : h ≤ size)
      (path : Path advance size (a + h) (advance a y h) b z later) :
      Path advance size a y b z (⟨a, y, h⟩ :: later)

/-- No time in the list lies strictly inside a step. -/
def Clear (times : List K) (strides : List (Stride K σ)) : Prop :=
  ∀ p ∈ times, ∀ s ∈ strides, ¬(s.start < p ∧ p < s.stop)

variable {advance : Stepper K σ} {size : K}

namespace Path

variable {a b c : K} {x y z : σ} {early late : List (Stride K σ)}

theorem trans (first : Path advance size a x b y early) (second : Path advance size b y c z late) :
    Path advance size a x c z (early ++ late) := by
  induction first with
  | here => exact second
  | step pos le _ ih => exact .step pos le (ih second)

theorem length_pos (path : Path advance size a x b y early) : ∀ s ∈ early, 0 < s.length := by
  induction path with
  | here => simp
  | step pos _ _ ih =>
    intro s hs
    rcases List.mem_cons.mp hs with rfl | hs
    · exact pos
    · exact ih s hs

variable [IsStrictOrderedRing K]

theorem le (path : Path advance size a x b y early) : a ≤ b := by
  induction path with
  | here => exact le_rfl
  | step pos _ _ ih => exact (le_add_of_nonneg_right pos.le).trans ih

/-- All steps lie between the ends of a path. -/
theorem within (path : Path advance size a x b y early) :
    ∀ s ∈ early, a ≤ s.start ∧ s.stop ≤ b := by
  induction path with
  | here => simp
  | step pos _ path ih =>
    intro s hs
    rcases List.mem_cons.mp hs with rfl | hs
    · exact ⟨le_rfl, path.le⟩
    · obtain ⟨above, below⟩ := ih s hs
      exact ⟨(le_add_of_nonneg_right pos.le).trans above, below⟩

/-- A time behind the end of a path is in none of its steps. -/
theorem clear_after (path : Path advance size a x b y early) {times : List K}
    (after : ∀ p ∈ times, b ≤ p) : Clear times early := fun p hp s hs inside =>
  (inside.2.trans_le ((path.within s hs).2.trans (after p hp))).false

/-- Neither is a time in front of its start. -/
theorem clear_before (path : Path advance size a x b y early) {times : List K}
    (before : ∀ p ∈ times, p ≤ a) : Clear times early := fun p hp s hs inside =>
  (((before p hp).trans (path.within s hs).1).trans_lt inside.1).false

end Path

theorem Clear.append {times : List K} {early late : List (Stride K σ)} (first : Clear times early)
    (second : Clear times late) : Clear times (early ++ late) := by
  intro p hp s hs
  rcases List.mem_append.mp hs with hs | hs
  · exact first p hp s hs
  · exact second p hp s hs

theorem Clear.of_subset {times others : List K} {strides : List (Stride K σ)}
    (clear : Clear times strides) (among : ∀ p ∈ others, p ∈ times) : Clear others strides :=
  fun p hp => clear p (among p hp)

/-! ## The record of a run -/

variable [IsStrictOrderedRing K] {budget : K → K → Nat}

/-- A run records the steps of a path. -/
theorem run_recorded (advance : Stepper K σ) (hsize : 0 < size) {stop t : K} {budget : Nat}
    (enough : stop - t ≤ budget * size) (hle : t ≤ stop) (y : σ) (kept : List (Stride K σ)) :
    ∃ z strides, run (recorded advance) size stop budget t (y, kept) =
        some (stop, z, kept ++ strides) ∧
      Path advance size t y stop z strides := by
  induction budget generalizing t y kept with
  | zero =>
    have heq : t = stop := le_antisymm hle (by simpa using enough)
    subst heq
    exact ⟨y, [], by rw [run_of_le le_rfl, List.append_nil], .here t y⟩
  | succ budget ih =>
    rcases hle.lt_or_eq with hlt | rfl
    · obtain ⟨z, strides, hrun, path⟩ := ih (rest_le_of_step hsize hlt enough)
        (add_stepSize_le hsize hlt) (advance t y (stepSize size t stop))
        (kept ++ [⟨t, y, stepSize size t stop⟩])
      refine ⟨z, ⟨t, y, stepSize size t stop⟩ :: strides, ?_,
        .step (stepSize_pos hsize hlt) (stepSize_le hsize hlt) path⟩
      rw [run_of_lt hlt]
      simpa [recorded] using hrun
    · exact ⟨y, [], by rw [run_of_le le_rfl, List.append_nil], .here t y⟩

/-- A history records the steps of a path that stops at each output time. -/
theorem history_recorded (advance : Stepper K σ) (hsize : 0 < size)
    (enough : Suffices size budget) {start : K} {times : List K}
    (sorted : (start :: times).Pairwise (· ≤ ·)) (y : σ) (kept : List (Stride K σ)) :
    ∃ saved z strides, history (recorded advance) size budget start (y, kept) times = some saved ∧
      (saved.map Prod.snd).getLast?.getD (y, kept) = (z, kept ++ strides) ∧
      Path advance size start y (times.getLast?.getD start) z strides ∧ Clear times strides := by
  induction times generalizing start y kept with
  | nil => exact ⟨[], y, [], rfl, by simp, .here start y, fun p hp => absurd hp (by simp)⟩
  | cons stop rest ih =>
    obtain ⟨first, sorted⟩ := List.pairwise_cons.mp sorted
    obtain ⟨x, early, hrun, before⟩ :=
      run_recorded advance hsize (enough start stop) (first stop (by simp)) y kept
    obtain ⟨saved, z, late, hsaved, hlast, after, clear⟩ := ih sorted x (kept ++ early)
    refine ⟨(stop, x, kept ++ early) :: saved, z, early ++ late, ?_, ?_, ?_, ?_⟩
    · simp [history_cons, hrun, hsaved]
    · simpa [List.getLast?_cons] using hlast
    · simpa [List.getLast?_cons] using before.trans after
    · -- All output times come after the first run, and the first one before the others.
      have later : ∀ p ∈ stop :: rest, stop ≤ p := by
        simpa using (List.pairwise_cons.mp sorted).1
      refine (before.clear_after later).append ?_
      intro p hp
      rcases List.mem_cons.mp hp with rfl | hp
      · exact (after.clear_before (by simp) : Clear [p] late) p (by simp)
      · exact clear p hp

end

/-- The steps that are recorded on a domain from `a` to `b`: a path that stops at
    every breakpoint and at every requested time. -/
theorem onDomain_recorded {K σ : Type} [Field K] [LinearOrder K] [IsStrictOrderedRing K]
    (advance : Stepper K σ) {size : K} {budget : K → K → Nat} (hsize : 0 < size)
    (enough : Suffices size budget) {requested : Option (List K)} {points : List K} {a b : K}
    (increasing : points.Pairwise (· < ·)) (first : points.head? = some a)
    (last : points.getLast? = some b) (within : Within a b (requested.getD [])) (y : σ) :
    ∃ rows z strides,
      onDomain (recorded advance) size budget requested points (y, []) = some rows ∧
      (rows.map Prod.snd).getLast? = some (z, strides) ∧
      Path advance size a y b z strides ∧ Clear (points ++ requested.getD []) strides := by
  obtain ⟨rest, rfl⟩ := List.head?_eq_some_iff.mp first
  have sorted := stops_sorted within.sorted increasing
  obtain ⟨saved, z, strides, hsaved, hlast, path, clear⟩ :=
    history_recorded advance hsize enough sorted y []
  -- the last time of all is the right end, which is served
  have ends : (stops requested a rest).getLast?.getD a = b := by
    have hb : b ∈ a :: rest := List.mem_of_getLast? last
    have served : b ∈ a :: stops requested a rest := by
      rcases List.mem_cons.mp hb with rfl | hb
      · simp
      · exact List.mem_cons_of_mem _ ((mem_stops increasing last).mpr (.inl hb))
    have final : (a :: stops requested a rest).getLast? =
        some ((stops requested a rest).getLast?.getD a) := by
      rw [List.getLast?_cons]
    refine le_antisymm ?_ (le_getLast sorted final b served)
    have below := fullGrid_le increasing last within
    exact below _ ((mem_fullGrid increasing last within).mpr (List.mem_of_getLast? final))
  refine ⟨(a, y, []) :: saved, z, strides, ?_, ?_, ends ▸ path, ?_⟩
  · rw [onDomain, pieces_eq_history hsize enough within.sorted increasing, hsaved]
    rfl
  · rw [List.map_cons, List.getLast?_cons, hlast, List.nil_append]
  · -- The served times and the start are all that is asked for.
    have among : ∀ p ∈ (a :: rest) ++ requested.getD [], p ∈ a :: stops requested a rest :=
      fun p hp => (mem_fullGrid increasing last within).mp (Domain.mem_sortPoints.mpr hp)
    refine Clear.of_subset ?_ among
    intro p hp
    rcases List.mem_cons.mp hp with rfl | hp
    · exact (path.clear_before (by simp) : Clear [p] strides) p (by simp)
    · exact clear p hp

end Steps

namespace Solve

open Steps

/-! ## The steps of a solution -/

section

variable {K : Type} {n : Nat} [Field K] [LinearOrder K]

/-- The solution that starts at the left end, with the steps that it takes. -/
def forwardRecorded (N : Numerics K) (method : Method K n) (f : K → Vector K n → Vector K n)
    (size : K) (budget : K → K → Nat) (requested : Option (List K)) (breakpoints : List K)
    (y : Vector K n) : Option (Solution K n × List (Stride K (Vector K n × Nat))) :=
  (onDomain (recorded (method.advance N f)) size budget requested breakpoints
      ((y, 0), [])).map fun rows =>
    (⟨select requested (rows.map fun (t, (y, _), _) => (t, y)),
      (rows.getLast?.map fun (_, (_, failures), _) => failures).getD 0⟩,
      (rows.getLast?.map fun (_, _, strides) => strides).getD [])

/-- The solution that starts at the right end, with the steps that it takes in
    reflected time. -/
def backwardRecorded (N : Numerics K) (method : Method K n) (f : K → Vector K n → Vector K n)
    (size : K) (budget : K → K → Nat) (requested : Option (List K)) (breakpoints : List K)
    (y : Vector K n) : Option (Solution K n × List (Stride K (Vector K n × Nat))) :=
  match breakpoints.head?, breakpoints.getLast? with
  | some a, some b =>
    (forwardRecorded N method (reflectField a b f) size budget (requested.map (mirror a b))
      (mirror a b breakpoints) y).map fun (s, strides) =>
        ({ s with rows := reflectRows a b s.rows }, strides)
  | _, _ => none

variable {N : Numerics K} {method : Method K n} {f : K → Vector K n → Vector K n} {size : K}
  {budget : K → K → Nat} {requested : Option (List K)} {breakpoints : List K} {y : Vector K n}

/-- Keeping a record does not change the solution. -/
theorem forwardRecorded_fst :
    (forwardRecorded N method f size budget requested breakpoints y).map Prod.fst =
      forward N method f size budget requested breakpoints y := by
  have same : ∀ t (y : (Vector K n × Nat) × List (Stride K (Vector K n × Nat))) h,
      (recorded (method.advance N f) t y h).1 = method.advance N f t y.1 h := fun _ _ _ => rfl
  have plain : onDomain (method.advance N f) size budget requested breakpoints (y, 0) =
      (onDomain (recorded (method.advance N f)) size budget requested breakpoints
        ((y, 0), [])).map (List.map (Prod.map id Prod.fst)) :=
    (onDomain_map same requested breakpoints ((y, 0), [])).symm
  rw [forward, plain, forwardRecorded, Option.map_map, Option.map_map]
  congr 1
  funext rows
  simp only [Function.comp_apply, List.map_map, List.getLast?_map, Option.map_map]
  rfl

theorem backwardRecorded_fst :
    (backwardRecorded N method f size budget requested breakpoints y).map Prod.fst =
      backward N method f size budget requested breakpoints y := by
  unfold backwardRecorded backward
  cases breakpoints.head? with
  | none => rfl
  | some a =>
    cases breakpoints.getLast? with
    | none => rfl
    | some b =>
      simp only [← forwardRecorded_fst, Option.map_map]
      rfl

theorem forward_of_recorded {s : Solution K n} {strides : List (Stride K (Vector K n × Nat))}
    (hs : forwardRecorded N method f size budget requested breakpoints y = some (s, strides)) :
    forward N method f size budget requested breakpoints y = some s := by
  rw [← forwardRecorded_fst, hs]
  rfl

theorem backward_of_recorded {s : Solution K n} {strides : List (Stride K (Vector K n × Nat))}
    (hs : backwardRecorded N method f size budget requested breakpoints y = some (s, strides)) :
    backward N method f size budget requested breakpoints y = some s := by
  rw [← backwardRecorded_fst, hs]
  rfl

variable [IsStrictOrderedRing K]

theorem forwardRecorded_path (N : Numerics K) (method : Method K n)
    (f : K → Vector K n → Vector K n) (hsize : 0 < size) (enough : Suffices size budget)
    {points : List K} {a b : K} (increasing : points.Pairwise (· < ·)) (first : points.head? = some a)
    (last : points.getLast? = some b) (within : Within a b (requested.getD [])) (y : Vector K n) :
    ∃ s strides z, forwardRecorded N method f size budget requested points y = some (s, strides) ∧
      Path (method.advance N f) size a (y, 0) b z strides ∧
      Clear (points ++ requested.getD []) strides := by
  obtain ⟨rows, z, strides, hrows, hlast, path, clear⟩ := onDomain_recorded (method.advance N f)
    hsize enough increasing first last within (y, 0)
  have kept : (rows.getLast?.map fun row => row.2.2).getD [] = strides := by
    rw [List.getLast?_map] at hlast
    obtain ⟨row, hrow, heq⟩ := Option.map_eq_some_iff.mp hlast
    simp [hrow, heq]
  have hs : ∃ s, forwardRecorded N method f size budget requested points y = some (s, strides) := by
    rw [forwardRecorded, hrows, Option.map_some]
    exact ⟨_, congrArg some (Prod.ext rfl kept)⟩
  obtain ⟨s, hs⟩ := hs
  exact ⟨s, strides, z, hs, path, clear⟩

theorem backwardRecorded_path (N : Numerics K) (method : Method K n)
    (f : K → Vector K n → Vector K n) (hsize : 0 < size) (enough : Suffices size budget)
    {points : List K} {a b : K} (increasing : points.Pairwise (· < ·)) (first : points.head? = some a)
    (last : points.getLast? = some b) (within : Within a b (requested.getD [])) (y : Vector K n) :
    ∃ s strides z, backwardRecorded N method f size budget requested points y = some (s, strides) ∧
      Path (method.advance N (reflectField a b f)) size a (y, 0) b z strides ∧
      Clear (mirror a b (points ++ requested.getD [])) strides := by
  have within' : Within a b ((requested.map (mirror a b)).getD []) := by
    cases requested with
    | none => exact within
    | some times => exact within.mirror
  obtain ⟨s, strides, z, hs, path, clear⟩ := forwardRecorded_path N method (reflectField a b f)
    hsize enough (mirror_increasing a b increasing) (head?_mirror last) (getLast?_mirror first)
    within' y
  refine ⟨{ s with rows := reflectRows a b s.rows }, strides, z, ?_, path, ?_⟩
  · simp only [backwardRecorded, first, last, hs, Option.map_some]
  · refine clear.of_subset fun p hp => ?_
    rw [mem_mirror, List.mem_append] at hp
    rw [List.mem_append, mem_mirror]
    refine hp.imp_right fun hp => ?_
    cases requested with
    | none => simp at hp
    | some times => exact mem_mirror.mpr hp

/-- **No step straddles a breakpoint or skips an output time.**  In either
    direction of time the steps of a solution lead from one end of the domain to
    the other, each from where the one before ended, and none is empty or longer
    than the step size.  No breakpoint and no requested time lies strictly inside
    a step; backwards, all of this holds in reflected time. -/
theorem strides_clear [Finiteness K] (hsize : 0 < size) (enough : Suffices size budget)
    (d : Domain K) (accepted : checkTimes d requested = .ok ()) :
    (∃ s strides z,
      forwardRecorded N method f size budget requested d.points y = some (s, strides) ∧
      forward N method f size budget requested d.points y = some s ∧
      Path (method.advance N f) size d.left (y, 0) d.right z strides ∧
      Clear (d.points ++ requested.getD []) strides) ∧
    (∃ s strides z,
      backwardRecorded N method f size budget requested d.points y = some (s, strides) ∧
      backward N method f size budget requested d.points y = some s ∧
      Path (method.advance N (reflectField d.left d.right f)) size d.left (y, 0) d.right z
        strides ∧
      Clear (mirror d.left d.right (d.points ++ requested.getD [])) strides) := by
  have within := checkTimes_iff.mp accepted
  have first : d.points.head? = some d.left := List.head?_eq_some_head d.points_ne_nil
  have last : d.points.getLast? = some d.right := List.getLast?_eq_some_getLast d.points_ne_nil
  obtain ⟨s, strides, z, hs, path, clear⟩ := forwardRecorded_path N method f hsize enough
    d.points_increasing first last within y
  obtain ⟨s', strides', z', hs', path', clear'⟩ := backwardRecorded_path N method f hsize enough
    d.points_increasing first last within y
  exact ⟨⟨s, strides, z, hs, forward_of_recorded hs, path, clear⟩,
    ⟨s', strides', z', hs', backward_of_recorded hs', path', clear'⟩⟩

end

/-- Three requests on two pieces, one of them at the breakpoint. -/
theorem strides_clear_halves :
    (∃ s strides z,
      forwardRecorded rationalNumerics .heun (fun _ y => y) (1 / 3)
        (fun a b => ⌈(b - a) / (1 / 3)⌉₊) (some [1 / 4, 1 / 2, 1 / 2]) halves.points #v[1] =
          some (s, strides) ∧
      forward rationalNumerics .heun (fun _ y => y) (1 / 3)
        (fun a b => ⌈(b - a) / (1 / 3)⌉₊) (some [1 / 4, 1 / 2, 1 / 2]) halves.points #v[1] =
          some s ∧
      Path (Method.advance rationalNumerics .heun fun _ y => y) (1 / 3) halves.left (#v[1], 0)
        halves.right z strides ∧
      Clear (halves.points ++ [1 / 4, 1 / 2, 1 / 2]) strides) ∧
    (∃ s strides z,
      backwardRecorded rationalNumerics .heun (fun _ y => y) (1 / 3)
        (fun a b => ⌈(b - a) / (1 / 3)⌉₊) (some [1 / 4, 1 / 2, 1 / 2]) halves.points #v[1] =
          some (s, strides) ∧
      backward rationalNumerics .heun (fun _ y => y) (1 / 3)
        (fun a b => ⌈(b - a) / (1 / 3)⌉₊) (some [1 / 4, 1 / 2, 1 / 2]) halves.points #v[1] =
          some s ∧
      Path (Method.advance rationalNumerics .heun
          (reflectField halves.left halves.right fun _ y => y)) (1 / 3) halves.left (#v[1], 0)
        halves.right z strides ∧
      Clear (mirror halves.left halves.right (halves.points ++ [1 / 4, 1 / 2, 1 / 2]))
        strides) :=
  strides_clear (by norm_num) (suffices_ceil (by norm_num)) halves
    (checkTimes_iff.mpr ⟨by decide +kernel, by decide +kernel, by decide +kernel⟩)

end Solve

end JetForm
