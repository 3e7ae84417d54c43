import JetForm.Tree.Arena
import Mathlib.Data.List.Forall2
import Mathlib.Tactic.Common

/-! # How a computation ends

    Building and tracing are computations with a state that survives a failure.
    `Ends x s done failed` says how `x` ends when it starts in state `s`: with a
    result and a state for which `done` holds, or with an error and a state for
    which `failed` holds.  It is the weakest precondition of both at once.

    A pass over trees carries a memory besides the arena.  Such a computation is
    a function of its memory, and the rules for it end in `State`.

    Failures are usually passed on as they are, so the rules leave `failed`
    alone.

    `Ended` says the same of a computation without a state. -/

namespace JetForm

variable {ε σ α β τ : Type}

/-- How `x` ends when it starts in state `s`. -/
def Ends (x : EStateM ε σ α) (s : σ) (done : α → σ → Prop) (failed : ε → σ → Prop) : Prop :=
  match x s with
  | .ok v s' => done v s'
  | .error e s' => failed e s'

/-- How a computation without a state ends. -/
def Ended (x : Except ε α) (done : α → Prop) (failed : ε → Prop) : Prop :=
  match x with
  | .ok v => done v
  | .error e => failed e

namespace Ends

variable {x : EStateM ε σ α} {s : σ} {done : α → σ → Prop} {failed : ε → σ → Prop}

theorem of_ok {v : α} {s' : σ} (h : Ends x s done failed) (run : x s = .ok v s') : done v s' := by
  rw [Ends, run] at h
  exact h

theorem of_error {e : ε} {s' : σ} (h : Ends x s done failed) (run : x s = .error e s') :
    failed e s' := by
  rw [Ends, run] at h
  exact h

/-- What holds of every result and of every failure. -/
theorem intro (ok : ∀ v s', x s = .ok v s' → done v s')
    (error : ∀ e s', x s = .error e s' → failed e s') : Ends x s done failed := by
  rw [Ends]
  split
  next v s' run => exact ok v s' run
  next e s' run => exact error e s' run

theorem mono {done' : α → σ → Prop} {failed' : ε → σ → Prop} (h : Ends x s done failed)
    (ok : ∀ v s', done v s' → done' v s') (error : ∀ e s', failed e s' → failed' e s') :
    Ends x s done' failed' :=
  intro (fun _ _ run => ok _ _ (h.of_ok run)) (fun _ _ run => error _ _ (h.of_error run))

/-- Another property of the results. -/
theorem weaken {done' : α → σ → Prop} (h : Ends x s done failed)
    (ok : ∀ v s', done v s' → done' v s') : Ends x s done' failed :=
  h.mono ok fun _ _ => id

/-- Two properties of the same end. -/
theorem and {done' : α → σ → Prop} {failed' : ε → σ → Prop} (h : Ends x s done failed)
    (h' : Ends x s done' failed') :
    Ends x s (fun v s' => done v s' ∧ done' v s') fun e s' => failed e s' ∧ failed' e s' :=
  intro (fun _ _ run => ⟨h.of_ok run, h'.of_ok run⟩) fun _ _ run => ⟨h.of_error run, h'.of_error run⟩

/-- A computation that cannot fail has a result. -/
theorem exists_ok (h : Ends x s done fun _ _ => False) : ∃ v s', x s = .ok v s' ∧ done v s' := by
  rw [Ends] at h
  split at h
  next v s' run => exact ⟨v, s', run, h⟩
  next => exact h.elim

/-- A computation has a result in exactly one case. -/
theorem exists_ok_iff {case : Prop} (h : Ends x s (fun _ _ => case) fun _ _ => ¬ case) :
    (∃ v s', x s = .ok v s') ↔ case := by
  constructor
  · rintro ⟨v, s', run⟩
    exact h.of_ok run
  · intro holds
    exact (h.mono (fun _ _ => id) fun _ _ fails => fails holds).exists_ok.imp
      fun v => Exists.imp fun s' known => known.1

theorem bind {f : α → EStateM ε σ β} {done : β → σ → Prop}
    (h : Ends x s (fun v s' => Ends (f v) s' done failed) failed) :
    Ends (x >>= f) s done failed := by
  rw [Ends] at h
  rw [Ends]
  show match EStateM.bind x f s with
    | .ok v s' => done v s'
    | .error e s' => failed e s'
  rw [EStateM.bind]
  split at h
  next v s' run => rwa [run]
  next e s' run => rwa [run]

theorem pure {v : α} (h : done v s) : Ends (pure v : EStateM ε σ α) s done failed := h

theorem throw {e : ε} (h : failed e s) : Ends (throw e : EStateM ε σ α) s done failed := h

/-- A computation without a state leaves it as it is. -/
theorem ofExcept {x : Except ε α}
    (h : Ended x (fun v => done v s) fun e => failed e s) :
    Ends (MonadExcept.ofExcept x : EStateM ε σ α) s done failed := by
  cases x with
  | ok v => exact h
  | error e => exact h

theorem get {done : σ → σ → Prop} (h : done s s) :
    Ends (MonadState.get : EStateM ε σ σ) s done failed := h

theorem map {f : α → β} {done : β → σ → Prop} (h : Ends x s (fun v => done (f v)) failed) :
    Ends (f <$> x) s done failed :=
  bind (f := fun v => Pure.pure (f v)) h

/-- A computation with a memory goes on with the memory it has reached. -/
theorem bindState {x : StateT τ (EStateM ε σ) α} {f : α → StateT τ (EStateM ε σ) β} {m : τ}
    {done : β × τ → σ → Prop}
    (h : Ends (x m) s (fun r s' => Ends (f r.1 r.2) s' done failed) failed) :
    Ends ((x >>= f) m) s done failed :=
  bind h

/-- A computation without a memory leaves it as it is. -/
theorem liftState {m : τ} {done : α × τ → σ → Prop}
    (h : Ends x s (fun v => done (v, m)) failed) :
    Ends ((monadLift x : StateT τ (EStateM ε σ) α) m) s done failed :=
  map h

theorem mapState {x : StateT τ (EStateM ε σ) α} {f : α → β} {m : τ} {done : β × τ → σ → Prop}
    (h : Ends (x m) s (fun r => done (f r.1, r.2)) failed) : Ends ((f <$> x) m) s done failed :=
  bind h

theorem pureState {v : α} {m : τ} {done : α × τ → σ → Prop} (h : done (v, m) s) :
    Ends ((Pure.pure v : StateT τ (EStateM ε σ) α) m) s done failed := h

theorem ofExceptState {x : Except ε α} {m : τ} {done : α × τ → σ → Prop}
    (h : Ended x (fun v => done (v, m) s) fun e => failed e s) :
    Ends ((MonadExcept.ofExcept x : StateT τ (EStateM ε σ) α) m) s done failed := by
  cases x with
  | ok v => exact h
  | error e => exact h

theorem getState {m : τ} {done : τ × τ → σ → Prop} (h : done (m, m) s) :
    Ends ((MonadState.get : StateT τ (EStateM ε σ) τ) m) s done failed := h

theorem modifyState {m : τ} {f : τ → τ} {done : PUnit × τ → σ → Prop} (h : done (⟨⟩, f m) s) :
    Ends ((modify f : StateT τ (EStateM ε σ) PUnit) m) s done failed := h

end Ends

namespace Ended

variable {x : Except ε α} {done : α → Prop} {failed : ε → Prop}

theorem of_ok {v : α} (h : Ended x done failed) (run : x = .ok v) : done v := by
  rw [run] at h
  exact h

theorem of_error {e : ε} (h : Ended x done failed) (run : x = .error e) : failed e := by
  rw [run] at h
  exact h

/-- What holds of every result and of every failure. -/
theorem intro (ok : ∀ v, x = .ok v → done v) (error : ∀ e, x = .error e → failed e) :
    Ended x done failed := by
  cases x with
  | ok v => exact ok v rfl
  | error e => exact error e rfl

theorem mono {done' : α → Prop} {failed' : ε → Prop} (h : Ended x done failed)
    (ok : ∀ v, done v → done' v) (error : ∀ e, failed e → failed' e) : Ended x done' failed' :=
  intro (fun _ run => ok _ (h.of_ok run)) (fun _ run => error _ (h.of_error run))

theorem bind {f : α → Except ε β} {done : β → Prop}
    (h : Ended x (fun v => Ended (f v) done failed) failed) : Ended (x >>= f) done failed := by
  cases x with
  | ok v => exact h
  | error e => exact h

end Ended

/-! ## Runs with a result -/

/-- A composed computation has a result only through one of its first step. -/
theorem exists_ok_of_bind {x : Except ε α} {f : α → Except ε β} {v : β}
    (run : x >>= f = .ok v) : ∃ u, x = .ok u ∧ f u = .ok v := by
  cases x with
  | ok u => exact ⟨u, rfl, run⟩
  | error e => cases run

theorem run_bind {x : EStateM ε σ α} {f : α → EStateM ε σ β} {s s' : σ} {v : α}
    (run : x s = .ok v s') : (x >>= f) s = f v s' := by
  show EStateM.bind x f s = _
  rw [EStateM.bind, run]

theorem run_map {x : EStateM ε σ α} {f : α → β} {s s' : σ} {v : α} (run : x s = .ok v s') :
    (f <$> x) s = .ok (f v) s' :=
  run_bind (f := fun v => Pure.pure (f v)) run

/-- A computation with a memory goes on with the memory it has reached. -/
theorem run_bindState {x : StateT τ (EStateM ε σ) α} {f : α → StateT τ (EStateM ε σ) β} {m : τ}
    {s s' : σ} {r : α × τ} (run : x m s = .ok r s') : (x >>= f) m s = f r.1 r.2 s' :=
  run_bind run

/-- Computations for the entries of a list end like others if each one does. -/
theorem Ends.mapM_eq_ok {f g : α → StateT τ (EStateM ε σ) β} {l : List α}
    (same : ∀ x ∈ l, ∀ m s, Ends (f x m) s (fun r s' => g x m s = .ok r s') fun _ _ => True)
    (m : τ) (s : σ) :
    Ends (l.mapM f m) s (fun r s' => l.mapM g m s = .ok r s') fun _ _ => True := by
  induction l generalizing m s with
  | nil =>
    rw [List.mapM_nil, List.mapM_nil]
    exact Ends.pureState rfl
  | cons x l ih =>
    rw [List.mapM_cons, List.mapM_cons]
    apply Ends.bindState
    apply (same x List.mem_cons_self m s).weaken
    intro r s' first
    rw [run_bindState first]
    apply Ends.bindState
    apply (ih (fun y hy => same y (List.mem_cons_of_mem x hy)) r.2 s').weaken
    intro r' s'' rest
    exact Ends.pureState (run_bindState rest)

/-! ## Folds -/

/-- What a fold preserves: an invariant of the entries that are dealt with, of
    the value that is folded, and of the state. -/
theorem Ends.foldlM {f : β → α → EStateM ε σ β} {failed : ε → σ → Prop} {l : List α}
    (invariant : List α → β → σ → Prop) {b : β} {s : σ} (start : invariant [] b s)
    (step : ∀ before x after b s, l = before ++ x :: after → invariant before b s →
      Ends (f b x) s (invariant (before ++ [x])) failed) :
    Ends (l.foldlM f b) s (invariant l) failed := by
  suffices rest : ∀ after before b s, l = before ++ after → invariant before b s →
      Ends (after.foldlM f b) s (invariant l) failed from rest l [] b s rfl start
  intro after
  induction after with
  | nil =>
    intro before b s eq holds
    rw [List.append_nil] at eq
    exact Ends.pure (eq ▸ holds)
  | cons x after ih =>
    intro before b s eq holds
    rw [List.foldlM_cons]
    refine Ends.bind ((step before x after b s eq holds).weaken ?_)
    intro b' s' holds'
    exact ih (before ++ [x]) b' s' (by simp [eq]) holds'

/-- The same for a fold with a memory. -/
theorem Ends.foldlState {f : β → α → StateT τ (EStateM ε σ) β} {failed : ε → σ → Prop}
    {l : List α} (invariant : List α → β × τ → σ → Prop) {b : β} {m : τ} {s : σ}
    (start : invariant [] (b, m) s)
    (step : ∀ before x after b m s, l = before ++ x :: after → invariant before (b, m) s →
      Ends (f b x m) s (invariant (before ++ [x])) failed) :
    Ends (l.foldlM f b m) s (invariant l) failed := by
  suffices rest : ∀ after before b m s, l = before ++ after → invariant before (b, m) s →
      Ends (after.foldlM f b m) s (invariant l) failed from rest l [] b m s rfl start
  intro after
  induction after with
  | nil =>
    intro before b m s eq holds
    rw [List.append_nil] at eq
    exact Ends.pureState (eq ▸ holds)
  | cons x after ih =>
    intro before b m s eq holds
    rw [List.foldlM_cons]
    refine Ends.bindState ((step before x after b m s eq holds).weaken ?_)
    intro r s' holds'
    exact ih (before ++ [x]) r.1 r.2 s' (by simp [eq]) holds'

/-- What a computation for each entry of a list preserves. -/
theorem Ends.mapM {f : α → EStateM ε σ β} {failed : ε → σ → Prop} {l : List α}
    (invariant : List α → List β → σ → Prop) {s : σ} (start : invariant [] [] s)
    (step : ∀ before x after ys s, l = before ++ x :: after → invariant before ys s →
      Ends (f x) s (fun y => invariant (before ++ [x]) (ys ++ [y])) failed) :
    Ends (l.mapM f) s (invariant l) failed := by
  suffices rest : ∀ after before ys s, l = before ++ after → invariant before ys s →
      Ends (after.mapM f) s (fun ys' => invariant l (ys ++ ys')) failed from rest l [] [] s rfl start
  intro after
  induction after with
  | nil =>
    intro before ys s eq holds
    rw [List.append_nil] at eq
    rw [List.mapM_nil]
    exact Ends.pure (by simpa [eq] using holds)
  | cons x after ih =>
    intro before ys s eq holds
    rw [List.mapM_cons]
    refine Ends.bind ((step before x after ys s eq holds).weaken ?_)
    intro y s' holds'
    refine Ends.bind ((ih (before ++ [x]) (ys ++ [y]) s' (by simp [eq]) holds').weaken ?_)
    intro ys' s'' holds''
    exact Ends.pure (by simpa using holds'')

/-- The same with a memory. -/
theorem Ends.mapMState {f : α → StateT τ (EStateM ε σ) β} {failed : ε → σ → Prop} {l : List α}
    (invariant : List α → List β × τ → σ → Prop) {m : τ} {s : σ} (start : invariant [] ([], m) s)
    (step : ∀ before x after ys m s, l = before ++ x :: after → invariant before (ys, m) s →
      Ends (f x m) s (fun r => invariant (before ++ [x]) (ys ++ [r.1], r.2)) failed) :
    Ends (l.mapM f m) s (invariant l) failed := by
  suffices rest : ∀ after before ys m s, l = before ++ after → invariant before (ys, m) s →
      Ends (after.mapM f m) s (fun r => invariant l (ys ++ r.1, r.2)) failed from
    rest l [] [] m s rfl start
  intro after
  induction after with
  | nil =>
    intro before ys m s eq holds
    rw [List.append_nil] at eq
    rw [List.mapM_nil]
    exact Ends.pureState (by simpa [eq] using holds)
  | cons x after ih =>
    intro before ys m s eq holds
    rw [List.mapM_cons]
    refine Ends.bindState ((step before x after ys m s eq holds).weaken ?_)
    intro r s' holds'
    refine Ends.bindState ((ih (before ++ [x]) (ys ++ [r.1]) r.2 s' (by simp [eq]) holds').weaken ?_)
    intro r' s'' holds''
    exact Ends.pureState (by simpa using holds'')

/-- An entry of the second of two related lists belongs to one of the first. -/
theorem exists_of_forall₂_right {R : α → β → Prop} {xs : List α} {ys : List β}
    (related : List.Forall₂ R xs ys) {i : Nat} {y : β} (hy : ys[i]? = some y) :
    ∃ x, xs[i]? = some x ∧ R x y := by
  induction related generalizing i with
  | nil => cases hy
  | cons first _ ih =>
    cases i with
    | zero =>
      cases hy
      exact ⟨_, rfl, first⟩
    | succ i => exact ih hy

/-- An entry of the first of two related lists belongs to one of the second. -/
theorem exists_of_forall₂_left {R : α → β → Prop} {xs : List α} {ys : List β}
    (related : List.Forall₂ R xs ys) {i : Nat} {x : α} (hx : xs[i]? = some x) :
    ∃ y, ys[i]? = some y ∧ R x y :=
  exists_of_forall₂_right related.flip hx

theorem exists_mem_of_forall₂_right {R : α → β → Prop} {xs : List α} {ys : List β}
    (related : List.Forall₂ R xs ys) {y : β} (hy : y ∈ ys) : ∃ x ∈ xs, R x y := by
  obtain ⟨i, listed⟩ := List.getElem?_of_mem hy
  obtain ⟨x, given, known⟩ := exists_of_forall₂_right related listed
  exact ⟨x, List.mem_of_getElem? given, known⟩

theorem exists_mem_of_forall₂_left {R : α → β → Prop} {xs : List α} {ys : List β}
    (related : List.Forall₂ R xs ys) {x : α} (hx : x ∈ xs) : ∃ y ∈ ys, R x y :=
  exists_mem_of_forall₂_right related.flip hx

/-- A computation without a state for each entry of a list. -/
theorem Ended.mapM {f : α → Except ε β} {done : α → β → Prop} {failed : ε → Prop} {l : List α}
    (each : ∀ x ∈ l, Ended (f x) (done x) failed) :
    Ended (l.mapM f) (List.Forall₂ done l) failed := by
  induction l with
  | nil => exact List.Forall₂.nil
  | cons x l ih =>
    rw [List.mapM_cons]
    refine Ended.bind ((each x List.mem_cons_self).mono ?_ fun _ => id)
    intro y first
    refine Ended.bind ((ih fun z hz => each z (List.mem_cons_of_mem x hz)).mono ?_ fun _ => id)
    exact fun ys rest => List.Forall₂.cons first rest

/-- Such computations have results if each of them has one. -/
theorem mapM_eq_ok_iff {f : α → Except ε β} {l : List α} {ys : List β} :
    l.mapM f = .ok ys ↔ List.Forall₂ (fun x y => f x = .ok y) l ys := by
  constructor
  · have all : Ended (l.mapM f) (List.Forall₂ (fun x y => f x = .ok y) l) fun _ => True :=
      Ended.mapM fun x _ => Ended.intro (fun _ => id) fun _ _ => trivial
    exact all.of_ok
  · intro related
    induction related with
    | nil => rfl
    | cons first _ ih =>
      rw [List.mapM_cons, first, ih]
      rfl

/-- The same for a fold without a state. -/
theorem Ended.foldlM {f : β → α → Except ε β} {failed : ε → Prop} {l : List α}
    (invariant : List α → β → Prop) {b : β} (start : invariant [] b)
    (step : ∀ before x after b, l = before ++ x :: after → invariant before b →
      Ended (f b x) (invariant (before ++ [x])) failed) :
    Ended (l.foldlM f b) (invariant l) failed := by
  suffices rest : ∀ after before b, l = before ++ after → invariant before b →
      Ended (after.foldlM f b) (invariant l) failed from rest l [] b rfl start
  intro after
  induction after with
  | nil =>
    intro before b eq holds
    rw [List.append_nil] at eq
    exact eq ▸ holds
  | cons x after ih =>
    intro before b eq holds
    rw [List.foldlM_cons]
    refine Ended.bind ((step before x after b eq holds).mono ?_ fun _ => id)
    intro b' holds'
    exact ih (before ++ [x]) b' (by simp [eq]) holds'

/-! ## Two computations -/

/-- Two computations end alike: with related results, or with the same error. -/
inductive EndAlike (R : α → β → Prop) : Except ε α → Except ε β → Prop
  | ok {v : α} {w : β} (related : R v w) : EndAlike R (.ok v) (.ok w)
  | error (e : ε) : EndAlike R (.error e) (.error e)

namespace EndAlike

variable {γ δ : Type} {R : α → β → Prop} {S : γ → δ → Prop} {x : Except ε α} {y : Except ε β}

theorem bind {f : α → Except ε γ} {g : β → Except ε δ} (alike : EndAlike R x y)
    (next : ∀ v w, R v w → EndAlike S (f v) (g w)) : EndAlike S (x >>= f) (y >>= g) := by
  cases alike with
  | ok related => exact next _ _ related
  | error e => exact error e

theorem of_eq {x y : Except ε α} (same : x = y) : EndAlike Eq x y := by
  subst same
  cases x with
  | ok v => exact ok rfl
  | error e => exact error e

theorem eq {x y : Except ε α} (alike : EndAlike Eq x y) : x = y := by
  cases alike with
  | ok related => rw [related]
  | error e => rfl

/-- Another property of the first result. -/
theorem and_left {P : α → Prop} (alike : EndAlike R x y) (known : ∀ v, x = .ok v → P v) :
    EndAlike (fun v w => R v w ∧ P v) x y := by
  cases alike with
  | ok related => exact ok ⟨related, known _ rfl⟩
  | error e => exact error e

/-- Computations for the entries of two related lists. -/
theorem mapM {f : α → Except ε γ} {g : β → Except ε δ} {xs : List α} {ys : List β}
    (related : List.Forall₂ R xs ys) (each : ∀ v w, R v w → EndAlike S (f v) (g w)) :
    EndAlike (List.Forall₂ S) (xs.mapM f) (ys.mapM g) := by
  induction related with
  | nil => exact ok List.Forall₂.nil
  | cons first _ ih =>
    rw [List.mapM_cons, List.mapM_cons]
    apply (each _ _ first).bind
    intro v w head
    exact ih.bind fun vs ws tail => ok (List.Forall₂.cons head tail)

/-- Folds side by side, over one list. -/
theorem foldlM {f : α → γ → Except ε α} {g : β → γ → Except ε β} {l : List γ} {b : α} {c : β}
    (start : R b c) (step : ∀ b c x, R b c → EndAlike R (f b x) (g c x)) :
    EndAlike R (l.foldlM f b) (l.foldlM g c) := by
  induction l generalizing b c with
  | nil => exact ok start
  | cons x l ih =>
    rw [List.foldlM_cons, List.foldlM_cons]
    exact (step b c x start).bind fun _ _ related => ih related

end EndAlike

/-- Two computations with states end alike: with related results, or with the same error and
    related states. -/
inductive RunAlike (R : α → σ → β → τ → Prop) (S : σ → τ → Prop) :
    EStateM.Result ε σ α → EStateM.Result ε τ β → Prop
  | ok {v : α} {s : σ} {w : β} {t : τ} (related : R v s w t) : RunAlike R S (.ok v s) (.ok w t)
  | error (e : ε) {s : σ} {t : τ} (related : S s t) : RunAlike R S (.error e s) (.error e t)

namespace RunAlike

variable {γ δ : Type} {R : α → σ → β → τ → Prop} {S : σ → τ → Prop} {x : EStateM ε σ α}
  {y : EStateM ε τ β} {s : σ} {t : τ}

theorem bind {Q : γ → σ → δ → τ → Prop} {f : α → EStateM ε σ γ} {g : β → EStateM ε τ δ}
    (alike : RunAlike R S (x s) (y t))
    (next : ∀ v s' w t', R v s' w t' → RunAlike Q S (f v s') (g w t')) :
    RunAlike Q S ((x >>= f) s) ((y >>= g) t) := by
  show RunAlike Q S (EStateM.bind x f s) (EStateM.bind y g t)
  rw [EStateM.bind, EStateM.bind]
  generalize x s = first, y t = second at alike
  cases alike with
  | ok related => exact next _ _ _ _ related
  | error e related => exact error e related

/-- Computations that fail in the same cases and with the same errors. -/
theorem of_ends (ok : Ends x s (fun v s' => Ends y t (R v s') fun _ _ => False)
      fun e s' => Ends y t (fun _ _ => False) fun e' t' => e' = e ∧ S s' t') :
    RunAlike R S (x s) (y t) := by
  cases first : x s with
  | ok v s' =>
    have second := ok.of_ok first
    cases run : y t with
    | ok w t' => exact .ok (second.of_ok run)
    | error e t' => exact (second.of_error run).elim
  | error e s' =>
    have second := ok.of_error first
    cases run : y t with
    | ok w t' => exact (second.of_ok run).elim
    | error e' t' =>
      obtain ⟨rfl, related⟩ := second.of_error run
      exact .error e' related

/-- Folds side by side, over one list. -/
theorem foldlM {f : α → γ → EStateM ε σ α} {g : β → γ → EStateM ε τ β} {l : List γ}
    (invariant : List γ → α → σ → β → τ → Prop) {b : α} {c : β} (start : invariant [] b s c t)
    (step : ∀ before x after b s c t, l = before ++ x :: after → invariant before b s c t →
      RunAlike (invariant (before ++ [x])) S (f b x s) (g c x t)) :
    RunAlike (invariant l) S (l.foldlM f b s) (l.foldlM g c t) := by
  suffices rest : ∀ after before b s c t, l = before ++ after → invariant before b s c t →
      RunAlike (invariant l) S (after.foldlM f b s) (after.foldlM g c t) from
    rest l [] b s c t rfl start
  intro after
  induction after with
  | nil =>
    intro before b s c t eq holds
    rw [List.append_nil] at eq
    exact ok (eq ▸ holds)
  | cons x after ih =>
    intro before b s c t eq holds
    rw [List.foldlM_cons, List.foldlM_cons]
    apply (step before x after b s c t eq holds).bind
    intro b' s' c' t' holds'
    exact ih (before ++ [x]) b' s' c' t' (by simp [eq]) holds'

end RunAlike

/-- A fold with a memory folds the memory as well. -/
theorem foldlM_apply {f : β → α → StateT τ (EStateM ε σ) β} (l : List α) (b : β) (m : τ) :
    l.foldlM f b m = l.foldlM (fun p x => f p.1 x p.2) (b, m) := by
  induction l generalizing b m with
  | nil => rfl
  | cons x l ih =>
    rw [List.foldlM_cons, List.foldlM_cons]
    show (f b x m >>= fun p => l.foldlM f p.1 p.2) = _
    exact bind_congr fun p => ih p.1 p.2

end JetForm
