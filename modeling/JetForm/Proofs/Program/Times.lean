import JetForm.Program.Scalar
import JetForm.Proofs.Program.Batch

/-! # A function at many times at once

    A coefficient is sampled by one call for all times.  The samples are the values
    that a minimiser computes at these times one by one, unless the function is one
    that cannot be evaluated at a single time.

    A call without a state reads no state entry, or it meets a fault.  So it makes
    no difference that a minimiser reads zeros instead. -/

namespace JetForm

open Tensor

/-! ## Runs without a state -/

/-- A cell without a fault is the same cell in the other run. -/
def Cell.Settles (c d : Cell Entry) : Prop :=
  c = d ∨ ∃ f, c = .fault f

/-- Whatever does not depend on the state stays the same with another one. -/
theorem Program.abreast_of_states (p : Program) (time : Entry) (state : Int → Cell Entry) :
    p.Abreast (fun _ v => v) Cell.Settles (Cell.meaning .single time fun _ => .fault .noState)
      (Cell.meaning .single time state) where
  unary op c d settles := by
    rcases settles with rfl | ⟨f, rfl⟩
    · exact Or.inl rfl
    · exact Or.inr ⟨f, rfl⟩
  binary op c d c' d' left right := by
    rcases left with rfl | ⟨f, rfl⟩
    · rcases right with rfl | ⟨f, rfl⟩
      · exact Or.inl rfl
      · cases c with
        | plain n | entry x => exact Or.inr ⟨f, rfl⟩
        | fault f' => exact Or.inr ⟨f', rfl⟩
    · exact Or.inr ⟨f, rfl⟩
  time := Or.inl rfl
  state _ _ := Or.inr ⟨.noState, rfl⟩
  value _ _ _ := Or.inl rfl

/-- Zero can be added to every entry. -/
theorem Entry.exists_plus_zero (x : Entry) : ∃ e, combine .plus x (.real 0) = .ok e := by
  cases x with
  | truth | whole | real | complex => exact ⟨_, rfl⟩

namespace ScalarFunction

/-- Times along one axis. -/
abbrev times (ts : List Float) : Tensor Float :=
  ⟨[ts.length], ts.toArray⟩

/-- The only output, as a cell. -/
theorem exists_run (f : ScalarFunction) {α : Type} (m : Meaning α) :
    ∃ y, f.program.run m = [y] := by
  apply List.length_eq_one_iff.mp
  rw [Program.run, List.length_map, f.length_outputs]

/-- A function that can be evaluated at a single time meets no fault there, and its output is
    an entry. -/
theorem runs_of_works (f : ScalarFunction) (works : f.fault? = none) {c : Cell Entry}
    (run : f.program.run (Cell.meaning .single (.real 0) fun _ => .fault .noState) = [c]) :
    f.program.fault? (Cell.meaning .single (.real 0) fun _ => .fault .noState) = none ∧
      ∃ x, c.toEntry .single = .ok x := by
  unfold fault? Program.entries at works
  rw [run, List.mapM_cons, List.mapM_nil] at works
  cases faults : f.program.fault? (Cell.meaning .single (.real 0) fun _ => .fault .noState) with
  | some fault =>
    rw [faults] at works
    cases works
  | none =>
    rw [faults] at works
    cases entry : c.toEntry .single with
    | error fault =>
      rw [entry] at works
      cases works
    | ok x => exact ⟨rfl, x, rfl⟩

/-- What a call does with its only output. -/
theorem entries_eq_of_run (f : ScalarFunction) (unshadowed : f.isShadowing = false)
    {ts : List Float} {c : Cell (Tensor Entry)}
    (run : f.program.run
      (Cell.meaning .tensor ((times ts).map .real) fun _ => .fault .noState) = [c])
    (faultless : f.program.fault?
      (Cell.meaning .tensor ((times ts).map .real) fun _ => .fault .noState) = none) :
    f.entries (times ts) none = c.toEntry .tensor >>= fun x =>
      Entries.zipTensors (Entry.combine .plus) x
        (Tensor.ofFn [ts.length] fun _ => Entry.real 0) := by
  have zero : (times ts).map (fun _ => Entry.real 0) =
      Tensor.ofFn [ts.length] fun _ => Entry.real 0 := by
    unfold Tensor.map Tensor.ofFn
    congr 1
    apply Array.ext <;> simp
  unfold entries
  rw [unshadowed]
  simp only [Bool.false_eq_true, if_false]
  unfold Program.entries
  rw [faultless, run, zero, List.mapM_cons, List.mapM_nil]
  cases c.toEntry .tensor with
  | error fault => rfl
  | ok x => rfl

/-- The value at a time, if the output of a run without a state has no fault. -/
theorem eval_of_run (f : ScalarFunction) {t : Float} {c : Cell Entry}
    (run : f.program.run (Cell.meaning .single (.real t) fun _ => .fault .noState) = [c])
    {e : Entry}
    (sum : (c.toEntry .single >>= fun x => Entry.combine .plus x (.real 0)) = .ok e) :
    e.toFloat = f.eval .double t := by
  have related := (f.program.abreast_of_states (.real t) fun _ => .entry (.real 0)).run
  rw [Program.withValues_same, run] at related
  obtain ⟨d, run'⟩ := f.exists_run (Cell.meaning .single (.real t) fun _ => .entry (.real 0))
  rw [run'] at related
  cases related with
  | cons settles _ =>
    have value : f.eval .double t = Evaluation.double.result d := by
      unfold eval
      dsimp only [Evaluation.double]
      rw [run']
    rcases settles with rfl | ⟨fault, rfl⟩
    · rw [value, Evaluation.toFloat_of_sum sum]
    · cases sum

variable (f : ScalarFunction) (complete : f.program.Complete)
  (elementwise : f.program.Elementwise) (unshadowed : f.isShadowing = false)
  (works : f.fault? = none)
include complete elementwise

/-- A run with many times and one with a single time go side by side. -/
theorem abreast_of_times (ts : List Float) (place : Option (List Nat)) (t : Float)
    (inside : ∀ index ∈ place, Inside [ts.length] index)
    (time : ∀ index ∈ place, (times ts).spread 0 index = t) :
    f.program.Abreast (fun _ v => v) (Cell.Spreads [ts.length] place)
      (Cell.meaning .tensor ((times ts).map .real) fun _ => .fault .noState)
      (Cell.meaning .single (.real t) fun _ => .fault .noState) := by
  have regular : (times ts).Regular := by simp [Regular, volume]
  exact Program.abreast_of_spreads complete elementwise inside
    (Entry.spreads_real regular (fits_refl _) inside time) fun _ _ => .fault .noState

/-- The row of samples, seen from a single place. -/
theorem exists_row (ts : List Float) (place : Option (List Nat)) (t : Float)
    (inside : ∀ index ∈ place, Inside [ts.length] index)
    (time : ∀ index ∈ place, (times ts).spread 0 index = t)
    {c : Cell (Tensor Entry)} (run : f.program.run
      (Cell.meaning .tensor ((times ts).map .real) fun _ => .fault .noState) = [c]) :
    ∃ d, f.program.run (Cell.meaning .single (.real t) fun _ => .fault .noState) = [d] ∧
      EndAlike (VectorField.IsRow [ts.length] place)
        (c.toEntry .tensor >>= fun x => Entries.zipTensors (Entry.combine .plus) x
          (Tensor.ofFn [ts.length] fun _ => Entry.real 0))
        (d.toEntry .single >>= fun e => Entry.combine .plus e (.real 0)) := by
  obtain ⟨d, single⟩ := f.exists_run (Cell.meaning .single (.real t) fun _ => .fault .noState)
  have related := (f.abreast_of_times complete elementwise ts place t inside time).run
  rw [Program.withValues_same, run, single] at related
  cases related with
  | cons spreads _ => exact ⟨d, single, VectorField.row_alike inside spreads⟩

include unshadowed works

/-- A function that can be evaluated at a single time can be evaluated at many, and has the
    values there that it has at each of them. -/
theorem entries_times (ts : List Float) :
    ∃ z, f.entries (times ts) none = .ok z ∧
      z.entries.toList.map Entry.toFloat = ts.map (f.eval .double) := by
  obtain ⟨c, run⟩ :=
    f.exists_run (Cell.meaning .tensor ((times ts).map .real) fun _ => .fault .noState)
  -- no fault at a single time, so none at many
  obtain ⟨d, single, row⟩ := f.exists_row complete elementwise ts none 0 nofun nofun run
  obtain ⟨faultless, x, entry⟩ := f.runs_of_works works single
  have faults := (f.abreast_of_times complete elementwise ts none 0 nofun nofun).fault?
    (fun _ _ => rfl) fun _ _ => Cell.Spreads.fault?
  rw [Program.withValues_same, faultless] at faults
  obtain ⟨e, added⟩ := x.exists_plus_zero
  rw [entry] at row
  change EndAlike _ _ (Entry.combine .plus x (.real 0)) at row
  rw [added] at row
  have call := f.entries_eq_of_run unshadowed run faults
  cases known : f.entries (times ts) none with
  | error fault =>
    rw [← call, known] at row
    cases row
  | ok z =>
    refine ⟨z, rfl, ?_⟩
    rw [← call, known] at row
    cases row with
    | ok row =>
    obtain ⟨spreads, shape⟩ := row
    have size : z.entries.size = ts.length := by
      rw [spreads.regular, shape]
      simp [volume]
    apply List.ext_getElem
    · simp [size]
    · intro k hk hk'
      have hk : k < ts.length := by simpa using hk'
      -- the place of the sample
      have inside : ∀ index ∈ some [k], Inside [ts.length] index := by
        intro index hi
        cases hi
        simpa [Inside] using hk
      have time : ∀ index ∈ some [k], (times ts).spread 0 index = ts[k] := by
        intro index hi
        cases hi
        rw [spread_self (inside [k] rfl)]
        simp [Tensor.get, ravel, volume, hk]
      obtain ⟨d, single, row⟩ :=
        f.exists_row complete elementwise ts (some [k]) ts[k] inside time run
      rw [← call, known] at row
      cases value : (d.toEntry .single >>= fun e => Entry.combine .plus e (.real 0)) with
      | error fault =>
        rw [value] at row
        cases row
      | ok e =>
        rw [value] at row
        cases row with
        | ok row =>
        have held := row.1.entry [k] rfl
        rw [spread_self (shape ▸ inside [k] rfl)] at held
        rw [List.getElem_map, List.getElem_map, ← f.eval_of_run single value, ← held]
        simp [Tensor.get, shape, ravel, volume, size, hk]

end ScalarFunction

end JetForm
