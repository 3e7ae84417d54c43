import Mathlib.Algebra.Order.Field.Basic
import Mathlib.Algebra.Order.Floor.Semiring
import Mathlib.Data.List.Basic
import Mathlib.Tactic.Linarith
import Mathlib.Tactic.Ring
import JetForm.Integrate.Steps

/-! # Runs over an ordered field

    Over exact scalars a run with enough steps ends exactly at its stop, and a
    history saves one state for each output time, under that very time.  The
    field that is integrated enters only through the steps a run makes, all of
    which end at or before the stop. -/

namespace JetForm

namespace Steps

variable {K σ : Type} [Field K] [LinearOrder K]

/-! ## Equations -/

section

variable {advance : Stepper K σ} {size stop t : K} {budget : Nat} {y : σ}

theorem run_of_le (h : stop ≤ t) : run advance size stop budget t y = some (t, y) := by
  unfold run
  rw [if_neg h.not_gt]

theorem run_of_lt (h : t < stop) :
    run advance size stop (budget + 1) t y =
      run advance size stop budget (t + stepSize size t stop)
        (advance t y (stepSize size t stop)) := by
  rw [run, if_pos h]

end

section

variable {advance : Stepper K σ} {size : K} {budget : K → K → Nat}

theorem history_cons (start stop : K) (rest : List K) (y : σ) :
    history advance size budget start y (stop :: rest) =
      (run advance size stop (budget start stop) start y).bind fun last =>
        (history advance size budget stop last.2 rest).map (last :: ·) := by
  rw [history]
  cases run advance size stop (budget start stop) start y <;> rfl

/-- A history can be stopped at any of its output times and be taken up again
    from the state saved there. -/
theorem history_append (early late : List K) (start : K) (y : σ) :
    history advance size budget start y (early ++ late) =
      (history advance size budget start y early).bind fun saved =>
        (history advance size budget (early.getLast?.getD start)
          ((saved.map Prod.snd).getLast?.getD y) late).map (saved ++ ·) := by
  induction early generalizing start y with
  | nil => simp [history]
  | cons stop rest ih =>
    rw [List.cons_append, history_cons, history_cons]
    cases hrun : run advance size stop (budget start stop) start y with
    | none => rfl
    | some last =>
      simp only [Option.bind_some, ih]
      cases history advance size budget stop last.2 rest with
      | none => rfl
      | some saved => simp [List.getLast?_cons, Function.comp_def]

/-- An output time at which the history stands already takes no step. -/
theorem history_again (start : K) (rest : List K) (y : σ) :
    history advance size budget start y (start :: rest) =
      (history advance size budget start y rest).map ((start, y) :: ·) := by
  rw [history_cons, run_of_le le_rfl]
  rfl

end

variable [IsStrictOrderedRing K]

/-! ## The size of a step -/

theorem stepSize_eq_min {size t stop : K} (hsize : 0 < size) (h : t < stop) :
    stepSize size t stop = min (stop - t) size := by
  have hrest : 0 < stop - t := sub_pos.mpr h
  unfold stepSize larger smaller
  rcases le_total (stop - t) size with hle | hle
  · simp [hle, hrest.not_ge]
  · rcases hle.lt_or_eq with hlt | heq
    · simp [hlt.not_ge, hle, hsize.not_ge]
    · simp [heq, hrest.not_ge]

theorem stepSize_pos {size t stop : K} (hsize : 0 < size) (h : t < stop) :
    0 < stepSize size t stop := by
  rw [stepSize_eq_min hsize h]
  exact lt_min (sub_pos.mpr h) hsize

theorem stepSize_le {size t stop : K} (hsize : 0 < size) (h : t < stop) :
    stepSize size t stop ≤ size := by
  rw [stepSize_eq_min hsize h]
  exact min_le_right _ _

/-- No step goes past the stop. -/
theorem add_stepSize_le {size t stop : K} (hsize : 0 < size) (h : t < stop) :
    t + stepSize size t stop ≤ stop := by
  rw [stepSize_eq_min hsize h]
  linarith [min_le_left (stop - t) size]

/-- A step is a full one unless it ends the run. -/
theorem rest_after_step {size t stop : K} (hsize : 0 < size) (h : t < stop) :
    t + stepSize size t stop = stop ∨ stepSize size t stop = size := by
  rw [stepSize_eq_min hsize h]
  rcases min_choice (stop - t) size with hmin | hmin
  · exact .inl (by rw [hmin]; ring)
  · exact .inr hmin

/-- A step uses up one step of the budget. -/
theorem rest_le_of_step {size t stop : K} {budget : Nat} (hsize : 0 < size) (h : t < stop)
    (enough : stop - t ≤ (budget + 1 : Nat) * size) :
    stop - (t + stepSize size t stop) ≤ budget * size := by
  rcases rest_after_step hsize h with hend | hfull
  · rw [hend, sub_self]
    positivity
  · rw [hfull]
    push_cast at enough
    linarith

/-! ## Runs -/

/-- A bound on the steps that lets every run end. -/
def Suffices (size : K) (budget : K → K → Nat) : Prop :=
  ∀ a b, b - a ≤ budget a b * size

/-- The number of steps that an interval needs is such a bound. -/
theorem suffices_ceil [FloorSemiring K] {size : K} (hsize : 0 < size) :
    Suffices size fun a b => ⌈(b - a) / size⌉₊ := fun a b =>
  calc b - a = (b - a) / size * size := (div_mul_cancel₀ _ hsize.ne').symm
    _ ≤ ⌈(b - a) / size⌉₊ * size := mul_le_mul_of_nonneg_right (Nat.le_ceil _) hsize.le

section

variable {size stop t : K} {budget : Nat}

/-- With enough steps a run ends exactly at the stop. -/
theorem run_reaches (advance : Stepper K σ) (hsize : 0 < size) (enough : stop - t ≤ budget * size)
    (hle : t ≤ stop) (y : σ) : ∃ z, run advance size stop budget t y = some (stop, z) := by
  induction budget generalizing t y with
  | zero =>
    have heq : t = stop := le_antisymm hle (by simpa using enough)
    exact ⟨y, by rw [heq, run_of_le le_rfl]⟩
  | succ budget ih =>
    rcases hle.lt_or_eq with hlt | rfl
    · rw [run_of_lt hlt]
      exact ih (rest_le_of_step hsize hlt enough) (add_stepSize_le hsize hlt) _
    · exact ⟨y, run_of_le le_rfl⟩

end

/-! ## Histories -/

/-- A history along sorted times saves a state for each of them. -/
theorem history_saves {size start : K} {budget : K → K → Nat} {times : List K}
    (advance : Stepper K σ) (hsize : 0 < size) (enough : Suffices size budget)
    (sorted : (start :: times).Pairwise (· ≤ ·)) (y : σ) :
    ∃ saved, history advance size budget start y times = some saved ∧
      saved.map Prod.fst = times := by
  induction times generalizing start y with
  | nil => exact ⟨[], rfl, rfl⟩
  | cons stop rest ih =>
    obtain ⟨first, sorted⟩ := List.pairwise_cons.mp sorted
    obtain ⟨z, hrun⟩ := run_reaches advance hsize (enough start stop) (first stop (by simp)) y
    obtain ⟨saved, hsaved, htimes⟩ := ih sorted z
    exact ⟨(stop, z) :: saved, by simp [history_cons, hrun, hsaved], by simp [htimes]⟩

/-! ## What a run depends on -/

/-- Do two steppers take the same steps, up to the given size, as long as these
    end at or before `limit`? -/
def AgreeUntil (size limit : K) (advance advance' : Stepper K σ) : Prop :=
  ∀ t y h, 0 < h → h ≤ size → t + h ≤ limit → advance t y h = advance' t y h

section

variable {advance advance' : Stepper K σ} {size limit : K} {budget : K → K → Nat}

theorem run_congr (hsize : 0 < size) (agree : AgreeUntil size limit advance advance') {stop : K}
    (hstop : stop ≤ limit) (budget : Nat) (t : K) (y : σ) :
    run advance size stop budget t y = run advance' size stop budget t y := by
  induction budget generalizing t y with
  | zero => rfl
  | succ budget ih =>
    by_cases h : t < stop
    · have same : advance t y (stepSize size t stop) = advance' t y (stepSize size t stop) :=
        agree t y _ (stepSize_pos hsize h) (stepSize_le hsize h)
          ((add_stepSize_le hsize h).trans hstop)
      rw [run_of_lt h, run_of_lt h, same, ih]
    · rw [run_of_le (not_lt.mp h), run_of_le (not_lt.mp h)]

/-- The rows of a history up to `limit` depend on no step past `limit`. -/
theorem history_congr (hsize : 0 < size) (enough : Suffices size budget)
    (agree : AgreeUntil size limit advance advance') {start : K} {times : List K}
    (sorted : (start :: times).Pairwise (· ≤ ·)) (y : σ) :
    ∃ saved saved', history advance size budget start y times = some saved ∧
      history advance' size budget start y times = some saved' ∧
      saved.filter (·.1 ≤ limit) = saved'.filter (·.1 ≤ limit) := by
  induction times generalizing start y with
  | nil => exact ⟨[], [], rfl, rfl, rfl⟩
  | cons stop rest ih =>
    by_cases hstop : stop ≤ limit
    · obtain ⟨first, sorted⟩ := List.pairwise_cons.mp sorted
      obtain ⟨z, hrun⟩ := run_reaches advance hsize (enough start stop) (first stop (by simp)) y
      have hrun' : run advance' size stop (budget start stop) start y = some (stop, z) := by
        rw [← run_congr hsize agree hstop, hrun]
      obtain ⟨saved, saved', hsaved, hsaved', same⟩ := ih sorted z
      refine ⟨(stop, z) :: saved, (stop, z) :: saved', ?_, ?_, ?_⟩
      · simp [history_cons, hrun, hsaved]
      · simp [history_cons, hrun', hsaved']
      · simp [hstop, same]
    · -- All times that are left lie behind the limit.
      obtain ⟨saved, hsaved, htimes⟩ := history_saves advance hsize enough sorted y
      obtain ⟨saved', hsaved', htimes'⟩ := history_saves advance' hsize enough sorted y
      have late : ∀ t ∈ stop :: rest, ¬t ≤ limit := by
        intro t ht hle
        rcases List.mem_cons.mp ht with rfl | ht
        · exact hstop hle
        · exact hstop (((List.pairwise_cons.mp (List.pairwise_cons.mp sorted).2).1 t ht).trans hle)
      have none_left : ∀ {rows : List (K × σ)}, rows.map Prod.fst = stop :: rest →
          rows.filter (·.1 ≤ limit) = [] := by
        intro rows htimes
        refine List.filter_eq_nil_iff.mpr fun row hrow => ?_
        simpa using late row.1 (htimes ▸ List.mem_map_of_mem hrow)
      exact ⟨saved, saved', hsaved, hsaved', by rw [none_left htimes, none_left htimes']⟩

end

end Steps

end JetForm
