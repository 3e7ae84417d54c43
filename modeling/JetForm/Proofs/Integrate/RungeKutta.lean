import Mathlib.Algebra.BigOperators.Fin
import Mathlib.Algebra.Field.Basic
import Mathlib.Algebra.Module.BigOperators
import Mathlib.Algebra.Order.Field.Rat
import Mathlib.Tactic.SplitIfs
import JetForm.Integrate.Tableau

/-! # Explicit Runge-Kutta steps as in the textbook

    The textbook defines the stages of a step by recursion, with a full sum over
    all earlier stages.  A step collects its stages in a list, cuts sums off
    where the shorter of two lists ends, and leaves zero weights out; for a
    tableau that passes the checks this makes no difference over a field.

    To see which calls a step makes, the field may have effects: `stepM` is the
    step in any monad, of which `step` is the case without effects. -/

namespace JetForm

namespace Tableau

/-! ## Weighted sums -/

section

variable {K V : Type} [Field K] [DecidableEq K] [AddCommGroup V] [Module K V]

/-- Leaving zero weights out does not change a weighted sum. -/
theorem addWeighted_eq_sum {scale : K → K} (zero : scale 0 = 0) (start : V) (weights : List K)
    (ks : List V) :
    addWeighted scale start weights ks =
      start + ((weights.zip ks).map fun (w, k) => scale w • k).sum := by
  rw [addWeighted]
  induction weights.zip ks generalizing start with
  | nil => simp
  | cons weighted rest ih =>
    obtain ⟨w, k⟩ := weighted
    -- A weight that is left out contributes zero.
    have next : (if w == 0 then start else start + scale w • k) = start + scale w • k := by
      split
      next none => rw [eq_of_beq none, zero, zero_smul, add_zero]
      next => rfl
    rw [List.foldl_cons, List.map_cons, List.sum_cons, ← add_assoc, ← next, ← ih]

/-- A weighted sum of as many stages as there are weights. -/
theorem addWeighted_range {scale : K → K} (zero : scale 0 = 0) (start : V) {weights : List K}
    {n : Nat} (length : weights.length = n) (k : Nat → V) :
    addWeighted scale start weights ((List.range n).map k) =
      start + ∑ j : Fin n, scale (weights.getD j 0) • k j := by
  have pairs : weights.zip ((List.range n).map k) =
      (List.range n).map fun j => (weights.getD j 0, k j) := by
    refine List.ext_getElem (by simp [length]) fun j hj _ => ?_
    have inside : j < weights.length := by simpa [length] using hj
    simp [List.getElem?_eq_getElem inside]
  rw [addWeighted_eq_sum zero, pairs, List.map_map,
    ← Finset.sum_range (fun j => scale (weights.getD j 0) • k j)]
  rfl

end

/-! ## Shapes -/

variable {K : Type}

/-- Do the lists have the lengths that the number of stages asks for? -/
structure Shaped (tab : Tableau K) : Prop where
  rows : tab.a.length = tab.stages
  times : tab.c.length = tab.stages
  row : ∀ i (h : i < tab.a.length), tab.a[i].length = i

section

variable [Zero K] [Neg K] [Add K] [Sub K] [LT K] [DecidableLT K] {tolerance : K}

theorem row_length_of_checkRows {rows : List (List K × K)} {start : Nat}
    (accepted : checkRows tolerance start rows = .ok ()) :
    ∀ i (h : i < rows.length), rows[i].1.length = start + i := by
  induction rows generalizing start with
  | nil => simp
  | cons first rest ih =>
    obtain ⟨row, stage⟩ := first
    rw [checkRows] at accepted
    split_ifs at accepted with wrong off
    intro i h
    cases i with
    | zero => simpa using wrong
    | succ i =>
      rw [List.getElem_cons_succ, ih accepted i (by simpa using h)]
      omega

/-- Only tableaux of the right shape are accepted. -/
theorem shaped_of_check [One K] {tab : Tableau K} (accepted : tab.check tolerance = .ok ()) :
    tab.Shaped := by
  by_cases counts : tab.a.length ≠ tab.stages ∨ tab.c.length ≠ tab.stages
  · rw [check, if_pos counts] at accepted
    cases accepted
  · have sums : (checkRows tolerance 0 (tab.a.zip tab.c) >>= fun _ =>
        if isOff tolerance tab.b 1 then throw .weights else pure ()) = .ok () := by
      rw [check, if_neg counts] at accepted
      exact accepted
    obtain ⟨rows, times⟩ := not_or.mp counts
    have rows := not_not.mp rows
    have times := not_not.mp times
    cases checked : checkRows tolerance 0 (tab.a.zip tab.c) with
    | error e =>
      rw [checked] at sums
      cases sums
    | ok =>
      refine ⟨rows, times, fun i h => ?_⟩
      have row := row_length_of_checkRows checked i (by simp; omega)
      simpa using row

end

/-! ## Fields with effects -/

section

variable {V : Type} [Zero K] [Add K] [Mul K] [BEq K] [Add V] [SMul K V]

/-- The stages of a step along a field with effects. -/
def stageValuesM {m : Type → Type} [Monad m] (f : K → V → m V) (t : K) (y : V) (h : K) :
    List (List K × K) → List V → m (List V)
  | [], ks => pure ks
  | (row, stage) :: rest, ks => do
    let k ← f (t + stage * h) (addWeighted (· * h) y row ks)
    stageValuesM f t y h rest (ks ++ [k])

/-- A field that keeps a record of its calls. -/
def recorded (f : K → V → V) (t : K) (y : V) : StateM (List (K × V)) V := do
  modify (· ++ [(t, y)])
  return f t y

/-- The record does not change the stages. -/
theorem fst_stageValuesM_recorded (f : K → V → V) (t : K) (y : V) (h : K)
    (rows : List (List K × K)) (ks : List V) (calls : List (K × V)) :
    ((stageValuesM (recorded f) t y h rows ks).run calls).1 = stageValues f t y h rows ks := by
  induction rows generalizing ks calls with
  | nil => rfl
  | cons first rest ih => exact ih _ _

variable [Zero V]

/-- A step along a field with effects. -/
def stepM {m : Type → Type} [Monad m] (tab : Tableau K) (f : K → V → m V) (t : K) (y : V) (h : K) :
    m V := do
  let ks ← stageValuesM f t y h (tab.a.zip tab.c) []
  return y + h • addWeighted id 0 tab.b ks

/-- Without effects this is a step. -/
theorem stepM_pure {m : Type → Type} [Monad m] [LawfulMonad m] (tab : Tableau K) (f : K → V → V)
    (t : K) (y : V) (h : K) :
    tab.stepM (fun t y => (pure (f t y) : m V)) t y h = pure (tab.step f t y h) := by
  have stages : ∀ rows ks, stageValuesM (fun t y => (pure (f t y) : m V)) t y h rows ks =
      pure (stageValues f t y h rows ks) := by
    intro rows
    induction rows with
    | nil => exact fun ks => rfl
    | cons stage rest ih =>
      intro ks
      rw [stageValuesM, pure_bind, ih]
      rfl
  rw [stepM, stages, pure_bind]
  rfl

end

/-! ## The textbook -/

section

variable {V : Type} [Field K] [AddCommGroup V] [Module K V]

/-- Stage `i` of a step by the textbook. -/
def stage (tab : Tableau K) (f : K → V → V) (t : K) (y : V) (h : K) (i : Nat) : V :=
  f (t + tab.c.getD i 0 * h)
    (y + h • ∑ j : Fin i, (tab.a.getD i []).getD j 0 • stage tab f t y h j)
termination_by i
decreasing_by exact j.2

/-- Where the field is evaluated for stage `i`. -/
def stagePoint (tab : Tableau K) (f : K → V → V) (t : K) (y : V) (h : K) (i : Nat) : K × V :=
  (t + tab.c.getD i 0 * h, y + h • ∑ j : Fin i, (tab.a.getD i []).getD j 0 • tab.stage f t y h j)

variable {tab : Tableau K} {f : K → V → V} {t h : K} {y : V}

theorem stage_eq (i : Nat) :
    tab.stage f t y h i = f (tab.stagePoint f t y h i).1 (tab.stagePoint f t y h i).2 := by
  rw [stage, stagePoint]

variable [DecidableEq K]

/-- The argument of a stage, as it is collected from the stages before. -/
theorem addWeighted_stages {i : Nat} (length : (tab.a.getD i []).length = i) :
    addWeighted (· * h) y (tab.a.getD i []) ((List.range i).map (tab.stage f t y h)) =
      (tab.stagePoint f t y h i).2 := by
  rw [addWeighted_range (zero_mul h) y length, stagePoint, Finset.smul_sum]
  simp only [mul_comm _ h, mul_smul]

/-- From the stages before `i` on, a step calls the field at the points of the
    other stages and finds these. -/
theorem stageValuesM_recorded (shaped : tab.Shaped) {rows : List (List K × K)} {i : Nat}
    (left : (tab.a.zip tab.c).drop i = rows) (calls : List (K × V)) :
    (stageValuesM (recorded f) t y h rows ((List.range i).map (tab.stage f t y h))).run calls =
      ((List.range (i + rows.length)).map (tab.stage f t y h),
        calls ++ (List.range' i rows.length).map (tab.stagePoint f t y h)) := by
  induction rows generalizing i calls with
  | nil => simp [stageValuesM]; rfl
  | cons first rest ih =>
    obtain ⟨row, c⟩ := first
    -- The row that is read next is row `i`, with one weight for each stage so far.
    have later : (tab.a.zip tab.c).drop (i + 1) = rest := by
      rw [← List.tail_drop, left, List.tail_cons]
    have here : (tab.a.zip tab.c)[i]? = some (row, c) := by
      rw [← List.head?_drop, left, List.head?_cons]
    obtain ⟨hrow, hc⟩ := List.getElem?_zip_eq_some.mp here
    have hrow : tab.a[i]? = some row := hrow
    have rowEq : tab.a.getD i [] = row := by simp [hrow]
    have point : (t + c * h, addWeighted (· * h) y row ((List.range i).map (tab.stage f t y h))) =
        tab.stagePoint f t y h i := by
      have length : (tab.a.getD i []).length = i := by
        obtain ⟨inside, eq⟩ := List.getElem?_eq_some_iff.mp hrow
        rw [rowEq, ← eq, shaped.row i inside]
      rw [← rowEq, addWeighted_stages length]
      simp [stagePoint, hc]
    have stages : (List.range i).map (tab.stage f t y h) ++ [tab.stage f t y h i] =
        (List.range (i + 1)).map (tab.stage f t y h) := by
      rw [List.range_succ, List.map_append, List.map_singleton]
    have call : (stageValuesM (recorded f) t y h ((row, c) :: rest)
        ((List.range i).map (tab.stage f t y h))).run calls =
          (stageValuesM (recorded f) t y h rest ((List.range i).map (tab.stage f t y h) ++
            [tab.stage f t y h i])).run (calls ++ [tab.stagePoint f t y h i]) := by
      rw [stage_eq, ← point]
      rfl
    rw [call, stages, ih later]
    simp [List.range'_succ, Nat.add_assoc, Nat.add_comm 1]

/-- **A step is that of the textbook.**  For every tableau that passes the
    checks a step ends at the full weighted sum of the stages.  As `stepM` it
    calls the field once for each stage, in order. -/
theorem step_textbook [LT K] [DecidableLT K] {tolerance : K}
    (accepted : tab.check tolerance = .ok ()) (f : K → V → V) (t : K) (y : V) (h : K) :
    tab.step f t y h = y + h • ∑ i : Fin tab.stages, tab.b.getD i 0 • tab.stage f t y h i ∧
      (∀ (m : Type → Type) [Monad m] [LawfulMonad m],
        tab.stepM (fun t y => (pure (f t y) : m V)) t y h = pure (tab.step f t y h)) ∧
      (tab.stepM (recorded f) t y h).run [] =
        (tab.step f t y h, (List.range tab.stages).map (tab.stagePoint f t y h)) := by
  have shaped := shaped_of_check accepted
  have rows : (tab.a.zip tab.c).length = tab.stages := by simp [shaped.rows, shaped.times]
  have run := stageValuesM_recorded (f := f) (t := t) (h := h) (y := y) shaped (i := 0)
    (List.drop_zero (l := tab.a.zip tab.c)) []
  rw [rows, List.nil_append, List.range_zero, List.map_nil, Nat.zero_add,
    ← List.range_eq_range'] at run
  have stages : stageValues f t y h (tab.a.zip tab.c) [] =
      (List.range tab.stages).map (tab.stage f t y h) := by
    rw [← fst_stageValuesM_recorded f t y h _ _ [], run]
  refine ⟨?_, fun m => stepM_pure tab f t y h, ?_⟩
  · have sum : addWeighted id 0 tab.b ((List.range tab.stages).map (tab.stage f t y h)) =
        0 + ∑ i : Fin tab.stages, id (tab.b.getD i 0) • tab.stage f t y h i :=
      addWeighted_range rfl 0 rfl _
    rw [step, stages, sum, zero_add]
    rfl
  · have called : (tab.stepM (recorded f) t y h).run [] =
        (y + h • addWeighted id 0 tab.b
            ((stageValuesM (recorded f) t y h (tab.a.zip tab.c) []).run []).1,
          ((stageValuesM (recorded f) t y h (tab.a.zip tab.c) []).run []).2) := rfl
    rw [called, fst_stageValuesM_recorded, run]
    rfl

/-- The classical method, in which many weights are zero. -/
theorem step_textbook_classic :
    (classic : Tableau ℚ).check 0 = .ok () ∧
      (classic : Tableau ℚ).step (fun t y => t + y) 0 1 1 =
        1 + (1 : ℚ) • ∑ i : Fin 4, (classic : Tableau ℚ).b.getD i 0 •
          (classic : Tableau ℚ).stage (fun t y => t + y) 0 1 1 i ∧
      (classic : Tableau ℚ).step (fun t y => t + y) 0 1 1 = 41 / 12 ∧
      (List.range 4).map ((classic : Tableau ℚ).stagePoint (fun t y => t + y) 0 1 1) =
        [(0, 1), (1 / 2, 3 / 2), (1 / 2, 2), (1, 7 / 2)] := by
  have accepted : (classic : Tableau ℚ).check 0 = .ok () := by with_unfolding_all rfl
  obtain ⟨sum, -, calls⟩ := step_textbook accepted (fun t y => t + y) 0 (1 : ℚ) 1
  have run : ((classic : Tableau ℚ).stepM (recorded fun t y => t + y) 0 1 1).run [] =
      ((41 / 12 : ℚ), [(0, 1), (1 / 2, 3 / 2), (1 / 2, 2), (1, 7 / 2)]) := by with_unfolding_all rfl
  rw [run] at calls
  obtain ⟨value, points⟩ := Prod.mk.inj calls
  exact ⟨accepted, sum, value.symm, points.symm⟩

end

end Tableau

end JetForm
