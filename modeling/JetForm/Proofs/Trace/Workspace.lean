import Mathlib
import JetForm.Proofs.Domain
import JetForm.Proofs.Tree.Adopt
import JetForm.Trace.Workspace

/-! # What tracing preserves

    A workspace is well formed if all its arenas are, and it grows arena by
    arena.  `Runs x w P` says that `x`, started in a well formed workspace
    `w`, leaves another one that has grown out of `w`, and that its result has
    the property `P` there.  Nothing is said about failures.

    An expression is `Stored` in a workspace if its arena is there and its
    handle is that of a recorded tree.  It `Fits` a relation `R` if moreover `R`
    holds between that tree and the domain of the expression. -/

namespace JetForm

namespace Workspace

/-! ## Growth -/

/-- The invariant of workspaces. -/
def WellFormed (w : Workspace) : Prop :=
  ∀ i, (w.arena i).WellFormed

/-- The workspace without problems. -/
theorem wellFormed_default : (default : Workspace).WellFormed := by
  intro i
  exact Arena.wellFormed_empty 1 0

/-- Workspace `w` has grown into workspace `w'`. -/
structure Grows (w w' : Workspace) : Prop where
  before : w.WellFormed
  after : w'.WellFormed
  size : w.arenas.size ≤ w'.arenas.size
  arena : ∀ i < w.arenas.size, (w.arena i).Extends (w'.arena i)

namespace Grows

variable {w w' w'' : Workspace}

theorem refl (wf : w.WellFormed) : w.Grows w :=
  ⟨wf, wf, Nat.le_refl _, fun i _ => Arena.Extends.refl (w.arena i)⟩

theorem trans (first : w.Grows w') (second : w'.Grows w'') : w.Grows w'' := by
  refine ⟨first.before, second.after, Nat.le_trans first.size second.size, ?_⟩
  intro i inside
  have inside' : i < w'.arenas.size := Nat.lt_of_lt_of_le inside first.size
  exact (first.arena i inside).trans (second.arena i inside')

/-- Expressions stay as they are. -/
theorem expression (grown : w.Grows w') {i h : Nat} (inside : i < w.arenas.size)
    (stored : h < (w.arena i).count) :
    (w'.arena i).expression h = (w.arena i).expression h :=
  (grown.arena i inside).expression (grown.before i) stored

end Grows

/-- Put an arena in the place of another. -/
def put (w : Workspace) (i : Nat) (a : Arena) : Workspace :=
  { w with arenas := w.arenas.setIfInBounds i a }

theorem arena_put_self {w : Workspace} {i : Nat} (inside : i < w.arenas.size) (a : Arena) :
    (w.put i a).arena i = a := by
  simp [put, arena, inside]

theorem arena_put_of_ne {w : Workspace} {i j : Nat} (other : i ≠ j) (a : Arena) :
    (w.put i a).arena j = w.arena j := by
  simp [put, arena, Array.getElem?_setIfInBounds_ne other]

/-- Growing one arena. -/
theorem grows_put {w : Workspace} (wf : w.WellFormed) {i : Nat} {a : Arena}
    (inside : i < w.arenas.size) (wf' : a.WellFormed) (grown : (w.arena i).Extends a) :
    w.Grows (w.put i a) := by
  refine ⟨wf, ?_, by simp [put], ?_⟩
  · intro j
    by_cases same : i = j
    · subst same
      rwa [arena_put_self inside]
    · rw [arena_put_of_ne same]
      exact wf j
  · intro j _
    by_cases same : i = j
    · subst same
      rwa [arena_put_self inside]
    · rw [arena_put_of_ne same]
      exact Arena.Extends.refl (w.arena j)

/-- The workspace with one problem more. -/
def push (w : Workspace) (a : Arena) : Workspace :=
  { w with arenas := w.arenas.push a }

theorem arena_push_self (w : Workspace) (a : Arena) : (w.push a).arena w.arenas.size = a := by
  simp [push, arena]

theorem arena_push_of_lt {w : Workspace} {i : Nat} (inside : i < w.arenas.size) (a : Arena) :
    (w.push a).arena i = w.arena i := by
  simp [push, arena, Array.getElem?_push_lt inside, Array.getElem?_eq_getElem inside]

/-- A new problem. -/
theorem grows_push {w : Workspace} (wf : w.WellFormed) {a : Arena} (wf' : a.WellFormed) :
    w.Grows (w.push a) := by
  refine ⟨wf, ?_, by simp [push], ?_⟩
  · intro i
    rcases Nat.lt_trichotomy i w.arenas.size with inside | rfl | outside
    · rw [arena_push_of_lt inside]
      exact wf i
    · rwa [arena_push_self]
    · have beyond : (w.arenas.push a).size ≤ i := by
        rw [Array.size_push]
        exact outside
      have none : (w.push a).arena i = default := by
        unfold push arena
        rw [Array.getElem?_eq_none beyond]
        rfl
      rw [none]
      exact Arena.wellFormed_empty 1 0
  · intro i inside
    rw [arena_push_of_lt inside]
    exact Arena.Extends.refl (w.arena i)

end Workspace

/-! ## Runs -/

variable {α β : Type} {w : Workspace}

/-- Building in one of the arenas puts the result in its place. -/
theorem Ends.within {i : Nat} {build : Building α} {done : α → Workspace → Prop}
    {failed : Error → Workspace → Prop}
    (h : Ends build (w.arena i) (fun v a => done v (w.put i a)) fun e a => failed e (w.put i a)) :
    Ends (Workspace.within i build) w done failed := by
  -- the place is empty while the arena is built in, and filled with the result
  have refill : ∀ a, ({ w with arenas :=
      (w.arenas.setIfInBounds i default).setIfInBounds i a } : Workspace) = w.put i a := by
    intro a
    simp [Workspace.put]
  unfold Ends Workspace.within
  dsimp only
  cases run : build (w.arena i) with
  | ok v a =>
    show done v _
    rw [refill]
    exact h.of_ok run
  | error e a =>
    show failed e _
    rw [refill]
    exact h.of_error run

/-- A new expression takes the next serial number. -/
theorem Ends.make {i h : Nat} {d : Domain Float} {done : Traced → Workspace → Prop}
    {failed : Error → Workspace → Prop}
    (made : done ⟨i, h, d, w.serial⟩ { w with serial := w.serial + 1 }) :
    Ends (Traced.make i h d) w done failed := made

/-- What holds after `x` has been run in a well formed workspace `w`, unless it
    fails. -/
def Runs (x : Tracing α) (w : Workspace) (P : Workspace → α → Prop) : Prop :=
  w.WellFormed → Ends x w (fun v w' => w.Grows w' ∧ P w' v) fun _ _ => True

namespace Runs

variable {x : Tracing α} {P : Workspace → α → Prop}

theorem of_ok (h : Runs x w P) (wf : w.WellFormed) {v : α} {w' : Workspace}
    (run : x w = .ok v w') : w.Grows w' ∧ P w' v :=
  (h wf).of_ok run

/-- Two properties of the same run. -/
theorem and {Q : Workspace → α → Prop} (h : Runs x w P) (h' : Runs x w Q) :
    Runs x w fun w' v => P w' v ∧ Q w' v := by
  intro wf
  apply ((h wf).and (h' wf)).mono
  · exact fun v w' known => ⟨known.1.1, known.1.2, known.2.2⟩
  · exact fun _ _ _ => trivial

/-- The result is that of this run. -/
theorem remember (h : Runs x w P) : Runs x w fun w' v => P w' v ∧ x w = .ok v w' := by
  intro wf
  apply Ends.intro
  · intro v w' run
    obtain ⟨grown, known⟩ := h.of_ok wf run
    exact ⟨grown, known, run⟩
  · exact fun _ _ _ => trivial

/-- Another property of the result. -/
theorem weaken {Q : Workspace → α → Prop} (h : Runs x w P)
    (ok : ∀ v w', w.Grows w' → P w' v → Q w' v) : Runs x w Q := by
  intro wf
  apply (h wf).weaken
  intro v w' done
  exact ⟨done.1, ok v w' done.1 done.2⟩

theorem bind {f : α → Tracing β} {Q : Workspace → β → Prop} (h : Runs x w P)
    (next : ∀ v w', w.Grows w' → P w' v → Runs (f v) w' Q) : Runs (x >>= f) w Q := by
  intro wf
  apply Ends.bind
  apply (h wf).weaken
  intro v w' done
  obtain ⟨grown, known⟩ := done
  apply (next v w' grown known grown.after).weaken
  intro v' w'' done'
  exact ⟨grown.trans done'.1, done'.2⟩

theorem pure {v : α} (h : P w v) : Runs (pure v) w P := by
  intro wf
  exact Ends.pure ⟨Workspace.Grows.refl wf, h⟩

theorem throw {e : Error} : Runs (throw e) w P := by
  intro _
  exact Ends.throw trivial

/-- Nothing comes after a failure. -/
theorem thrown {e : Error} {f : α → Tracing β} {P : Workspace → β → Prop} :
    Runs (MonadExcept.throw e >>= f) w P :=
  fun _ => trivial

/-- A condition that is checked first. -/
theorem guarded {b : Prop} [Decidable b] {e : Error} {f : α → Tracing β} {x : Tracing β}
    {P : Workspace → β → Prop} (h : Runs x w P) :
    Runs (if b then MonadExcept.throw e >>= f else x) w P := by
  split
  · exact thrown
  · exact h

theorem map {f : α → β} {Q : Workspace → β → Prop}
    (h : Runs x w fun w' v => Q w' (f v)) : Runs (f <$> x) w Q :=
  bind h fun _ _ _ known => pure known

/-- What is read is the workspace itself. -/
theorem bindGet {f : Workspace → Tracing α} (h : Runs (f w) w P) :
    Runs (MonadState.get >>= f) w P :=
  h

theorem bindExcept {x : Except Error α} {f : α → Tracing β} {Q : Workspace → β → Prop}
    (h : ∀ v, x = .ok v → Runs (f v) w Q) : Runs (MonadExcept.ofExcept x >>= f) w Q := by
  cases x with
  | ok v => exact h v rfl
  | error e => exact thrown

/-- A domain that is created or joined. -/
theorem bindDomain {x : Except (DomainError Float) (Domain Float)} {f : Domain Float → Tracing β}
    {Q : Workspace → β → Prop} (h : ∀ d, x = .ok d → Runs (f d) w Q) :
    Runs (Workspace.checkDomain x >>= f) w Q := by
  cases x with
  | ok d => exact h d rfl
  | error e => exact thrown

theorem check {x : Except Error α} (h : ∀ v, x = .ok v → P w v) :
    Runs (Workspace.check x) w P := by
  cases x with
  | ok v => exact pure (h v rfl)
  | error e => exact throw

theorem checkDomain {x : Except (DomainError Float) (Domain Float)}
    {P : Workspace → Domain Float → Prop} (h : ∀ d, x = .ok d → P w d) :
    Runs (Workspace.checkDomain x) w P := by
  cases x with
  | ok d => exact pure (h d rfl)
  | error e => exact throw

/-- A check whose result does not matter. -/
theorem checked {x : Except Error α} : Runs (Workspace.check x) w fun _ _ => True :=
  check fun _ _ => trivial

/-- Building in one of the arenas. -/
theorem within {i : Nat} {build : Building α} (inside : i < w.arenas.size)
    (h : (w.arena i).WellFormed → Ends build (w.arena i)
      (fun v a => a.WellFormed ∧ (w.arena i).Extends a ∧
        ∀ w', w.Grows w' → w'.arena i = a → P w' v) fun _ _ => True) :
    Runs (Workspace.within i build) w P := by
  intro wf
  apply Ends.within
  apply (h (wf i)).weaken
  intro v a built
  obtain ⟨wf', extended, known⟩ := built
  have grown := Workspace.grows_put wf inside wf' extended
  exact ⟨grown, known _ grown (Workspace.arena_put_self inside a)⟩

/-- A computation for each entry of a list. -/
theorem mapM {f : α → Tracing β} {P : α → Workspace → β → Prop} {l : List α}
    (keep : ∀ x v w' w'', w'.Grows w'' → P x w' v → P x w'' v)
    (each : ∀ x ∈ l, ∀ w', w.Grows w' → Runs (f x) w' (P x)) :
    Runs (l.mapM f) w fun w' ys => List.Forall₂ (fun x y => P x w' y) l ys := by
  induction l generalizing w with
  | nil => exact pure List.Forall₂.nil
  | cons x l ih =>
    intro wf
    rw [List.mapM_cons]
    refine bind (each x List.mem_cons_self w (Workspace.Grows.refl wf)) ?_ wf
    intro y w' grown first
    have rest : Runs (l.mapM f) w' fun w'' ys => List.Forall₂ (fun x y => P x w'' y) l ys :=
      ih fun z hz w'' grown' => each z (List.mem_cons_of_mem x hz) w'' (grown.trans grown')
    apply bind rest
    intro ys w'' grown' others
    exact pure (List.Forall₂.cons (keep x y w' w'' grown' first) others)

/-- The same where all results are good in the same way. -/
theorem mapM_all {f : α → Tracing β} {P : Workspace → β → Prop} {l : List α}
    (keep : ∀ v w' w'', w'.Grows w'' → P w' v → P w'' v)
    (each : ∀ x ∈ l, ∀ w', w.Grows w' → Runs (f x) w' P) :
    Runs (l.mapM f) w fun w' ys => ∀ y ∈ ys, P w' y := by
  apply (mapM (fun _ => keep) each).weaken
  intro ys w' _ related y hy
  obtain ⟨x, -, known⟩ := exists_mem_of_forall₂_right related hy
  exact known

/-- A run that cannot fail ends with what is known of its results. -/
theorem ends (h : Runs x w P) (wf : w.WellFormed)
    (total : Ends x w (fun _ _ => True) fun _ _ => False) :
    Ends x w (fun v w' => w.Grows w' ∧ P w' v) fun _ _ => False :=
  ((h wf).and total).mono (fun _ _ => And.left) fun _ _ => And.right

end Runs

/-! ## Results -/

namespace Tracing

/-- A computation in two steps has a result if both steps have one. -/
theorem bind_eq_ok {x : Tracing α} {f : α → Tracing β} {w' : Workspace} {v : β} :
    (x >>= f) w = .ok v w' ↔ ∃ u w₁, x w = .ok u w₁ ∧ f u w₁ = .ok v w' := by
  show EStateM.bind x f w = _ ↔ _
  rw [EStateM.bind]
  cases x w with
  | ok u w₁ => simp
  | error e w₁ => simp

theorem ofExcept_eq_ok {x : Except Error α} {w' : Workspace} {v : α} :
    (MonadExcept.ofExcept x : Tracing α) w = .ok v w' ↔ x = .ok v ∧ w' = w := by
  cases x with
  | ok u =>
    show EStateM.Result.ok u w = .ok v w' ↔ _
    simp [eq_comm]
  | error e =>
    show EStateM.Result.error e w = .ok v w' ↔ _
    simp

theorem checkDomain_eq_ok {x : Except (DomainError Float) (Domain Float)} {w' : Workspace}
    {d : Domain Float} : Workspace.checkDomain x w = .ok d w' ↔ x = .ok d ∧ w' = w := by
  cases x with
  | ok u =>
    show EStateM.Result.ok u w = .ok d w' ↔ _
    simp [eq_comm]
  | error e =>
    show EStateM.Result.error _ w = .ok d w' ↔ _
    simp

end Tracing

/-! ## Numbers -/

namespace Workspace

theorem nextSerial_runs : Runs nextSerial w fun _ _ => True := by
  intro wf
  exact ⟨⟨wf, wf, Nat.le_refl _, fun i _ => Arena.Extends.refl (w.arena i)⟩, trivial⟩

/-- A literal is a double, whatever its origin. -/
theorem literal_runs (x : Float) :
    Runs (literal x) w fun _ n => ∃ origin, n = .double x origin := by
  unfold literal
  split
  · apply Runs.bind nextSerial_runs
    intro serial w' _ _
    exact Runs.pure ⟨_, rfl⟩
  · exact Runs.pure ⟨_, rfl⟩

theorem entryLiteral_runs (x : Entry) : Runs (entryLiteral x) w fun _ _ => True := by
  unfold entryLiteral
  split
  · apply Runs.bind nextSerial_runs
    intro serial w' _ _
    exact Runs.pure trivial
  · exact Runs.pure trivial

end Workspace

/-! ## Expressions -/

/-- Handle `h` of arena `i` is that of a recorded tree. -/
structure Workspace.Records (w : Workspace) (i h : Nat) : Prop where
  arena : i < w.arenas.size
  inside : h < (w.arena i).count
  recorded : ((w.arena i).expression h).recorded = true

theorem Workspace.Records.grow {w' : Workspace} {i h : Nat} (stored : w.Records i h)
    (grown : w.Grows w') : w'.Records i h := by
  have extended := grown.arena i stored.arena
  refine ⟨Nat.lt_of_lt_of_le stored.arena grown.size, extended.lt_count stored.inside, ?_⟩
  rw [grown.expression stored.arena stored.inside]
  exact stored.recorded

/-- The recorded tree has the property `T`. -/
structure Workspace.RecordsWith (w : Workspace) (T : Tree → Prop) (i h : Nat) : Prop
    extends w.Records i h where
  fits : T ((w.arena i).expression h)

theorem Workspace.RecordsWith.grow {w' : Workspace} {T : Tree → Prop} {i h : Nat}
    (stored : w.RecordsWith T i h) (grown : w.Grows w') : w'.RecordsWith T i h := by
  refine ⟨stored.toRecords.grow grown, ?_⟩
  rw [grown.expression stored.arena stored.inside]
  exact stored.fits

/-- Building a recorded tree. -/
theorem Workspace.within_records {T : Tree → Prop} {i : Nat} {build : Building Nat}
    (inside : i < w.arenas.size)
    (built : (w.arena i).WellFormed → Ends build (w.arena i)
      (fun h a => ∃ t, (w.arena i).Makes t h a ∧ t.recorded = true ∧ T t) fun _ _ => True) :
    Runs (Workspace.within i build) w fun w' h => w'.RecordsWith T i h := by
  apply Runs.within inside
  intro wf
  apply (built wf).weaken
  intro h a made
  obtain ⟨t, made, recorded, fits⟩ := made
  refine ⟨made.wellFormed, made.grown, ?_⟩
  intro w' grown same
  have expression : (w'.arena i).expression h = t := by rw [same, made.expression]
  refine ⟨⟨Nat.lt_of_lt_of_le inside grown.size, same ▸ made.inside, ?_⟩, ?_⟩
  · rwa [expression]
  · rwa [expression]

namespace Traced

/-- The expression is that of a recorded tree. -/
def Stored (w : Workspace) (e : Traced) : Prop :=
  w.Records e.arena e.handle

theorem Stored.grow {w' : Workspace} {e : Traced} (stored : e.Stored w) (grown : w.Grows w') :
    e.Stored w' :=
  Workspace.Records.grow stored grown

variable {R : Tree → Domain Float → Prop}

/-- The tree of the expression and its domain are related. -/
def Fits (R : Tree → Domain Float → Prop) (w : Workspace) (e : Traced) : Prop :=
  w.RecordsWith (R · e.domain) e.arena e.handle

theorem Fits.grow {w' : Workspace} {e : Traced} (fits : e.Fits R w) (grown : w.Grows w') :
    e.Fits R w' :=
  Workspace.RecordsWith.grow fits grown

theorem Fits.stored {e : Traced} (fits : e.Fits R w) : e.Stored w :=
  fits.toRecords

/-- Nothing is asked of the domain. -/
theorem fits_true {e : Traced} : e.Fits (fun _ _ => True) w ↔ e.Stored w :=
  ⟨Fits.stored, fun stored => ⟨stored, trivial⟩⟩

/-- The tree of the expression and its domain are the given ones. -/
def Is (t : Tree) (d : Domain Float) (w : Workspace) (e : Traced) : Prop :=
  e.Fits (fun t' d' => t' = t ∧ d' = d) w

theorem Is.related {e : Traced} {t : Tree} {d : Domain Float} (is : e.Is t d w) (known : R t d) :
    e.Fits R w := by
  obtain ⟨tree, domain⟩ := is.fits
  refine ⟨is.toRecords, ?_⟩
  rwa [tree, domain]

theorem make_runs {i h : Nat} {d : Domain Float} (stored : w.RecordsWith (R · d) i h) :
    Runs (make i h d) w fun w' e => e.Fits R w' ∧ e.arena = i := by
  unfold make
  apply Runs.bind Workspace.nextSerial_runs
  intro serial w' grown _
  exact Runs.pure ⟨stored.grow grown, rfl⟩

/-- Building a recorded tree and making an expression of it. -/
theorem within_make_runs {i : Nat} {d : Domain Float} {build : Building Nat}
    (inside : i < w.arenas.size)
    (built : (w.arena i).WellFormed → Ends build (w.arena i)
      (fun h a => ∃ t, (w.arena i).Makes t h a ∧ t.recorded = true ∧ R t d) fun _ _ => True) :
    Runs (do make i (← Workspace.within i build) d) w fun w' e => e.Fits R w' ∧ e.arena = i := by
  apply Runs.bind (Workspace.within_records (T := (R · d)) inside built)
  intro h w' _ stored
  exact make_runs stored

/-- The same if the tree is known and cannot be refused. -/
theorem within_make_ends {i : Nat} {t : Tree} {d : Domain Float} {build : Building Nat}
    (wf : w.WellFormed) (inside : i < w.arenas.size) (recorded : t.recorded = true)
    (built : Ends build (w.arena i) (fun h a => (w.arena i).Makes t h a) fun _ _ => False) :
    Ends (do make i (← Workspace.within i build) d) w
      (fun e w' => w.Grows w' ∧ e.Is t d w' ∧ e.arena = i) fun _ _ => False := by
  -- what the result is follows from how it is built, and that there is one from `built`
  have known : Runs (do make i (← Workspace.within i build) d) w
      fun w' e => e.Is t d w' ∧ e.arena = i := by
    apply within_make_runs inside
    intro _
    exact built.mono (fun h a made => ⟨t, made, recorded, rfl, rfl⟩) fun _ _ => False.elim
  apply known.ends wf
  apply Ends.bind
  apply Ends.within
  exact built.weaken fun h a _ => Ends.make trivial

end Traced

/-! ## Placeholders -/

/-- All placeholders fit, and they are in one arena. -/
structure Placeholders.Fit (R : Tree → Domain Float → Prop) (w : Workspace) (p : Placeholders) :
    Prop where
  time : p.time.Fits R w
  unknowns : ∀ u ∈ p.unknowns, u.Fits R w ∧ u.arena = p.time.arena

theorem Placeholders.Fit.grow {R : Tree → Domain Float → Prop} {w' : Workspace} {p : Placeholders}
    (fit : p.Fit R w) (grown : w.Grows w') : p.Fit R w' := by
  refine ⟨fit.time.grow grown, fun u hu => ?_⟩
  exact ⟨(fit.unknowns u hu).1.grow grown, (fit.unknowns u hu).2⟩

/-- Are the leaves of all trees in relation to the domain? -/
structure Leaves (R : Tree → Domain Float → Prop) (d : Domain Float) : Prop where
  time : R .independent d
  unknown : ∀ i, R (.leaf i) d

/-- The leaves fit all domains with breakpoints among the given ones. -/
def LeavesWithin (R : Tree → Domain Float → Prop) (points : List Float) : Prop :=
  ∀ d : Domain Float, (∀ x, d.points.contains x → points.contains x) → Leaves R d

namespace LeavesWithin

variable {R : Tree → Domain Float → Prop} {points others : List Float}

theorem always : LeavesWithin (fun _ _ => True) points :=
  fun _ _ => ⟨trivial, fun _ => trivial⟩

theorem of_subset (leaves : LeavesWithin R others) (among : points ⊆ others) :
    LeavesWithin R points := by
  intro d within
  apply leaves d
  intro x hx
  obtain ⟨y, hy, same⟩ := List.contains_iff_exists_mem_beq.mp (within x hx)
  exact List.contains_iff_exists_mem_beq.mpr ⟨y, among hy, same⟩

theorem left (leaves : LeavesWithin R (points ++ others)) : LeavesWithin R points :=
  leaves.of_subset (List.subset_append_left points others)

theorem right (leaves : LeavesWithin R (points ++ others)) : LeavesWithin R others :=
  leaves.of_subset (List.subset_append_right points others)

/-- Domains are created from the points that are given for them. -/
theorem create (leaves : LeavesWithin R points) {d : Domain Float}
    (created : Domain.create points = .ok d) : Leaves R d :=
  leaves d fun x hx => (Domain.contains_create created x).symm.trans hx

end LeavesWithin

/-- The placeholders are the leaves of one arena, as many as are asked for. -/
structure Placeholders.Are (count : Nat) (d : Domain Float) (w : Workspace) (p : Placeholders) :
    Prop where
  time : p.time.Is .independent d w
  unknowns : List.Forall₂ (fun i u => u.Is (.leaf i) d w ∧ u.arena = p.time.arena)
    (List.range count) p.unknowns

/-- The placeholders fit if all leaves do. -/
theorem Placeholders.Are.fit {R : Tree → Domain Float → Prop} {count : Nat} {d : Domain Float}
    {p : Placeholders} (are : p.Are count d w) (leaves : Leaves R d) : p.Fit R w := by
  refine ⟨are.time.related leaves.time, fun u hu => ?_⟩
  obtain ⟨k, -, is, place⟩ := exists_mem_of_forall₂_right are.unknowns hu
  exact ⟨is.related (leaves.unknown k), place⟩

/-- The unknowns are put into an arena one after the other. -/
theorem Placeholders.unknowns_end {i count : Nat} (wf : w.WellFormed) (inside : i < w.arenas.size)
    (size : (w.arena i).size = count) (domain : Domain Float) :
    Ends ((List.range count).mapM fun (k : Nat) => do
        Traced.make i (← Workspace.within i (Arena.leaf k)) domain) w
      (fun us w' => w.Grows w' ∧ List.Forall₂ (fun k u => u.Is (.leaf k) domain w' ∧ u.arena = i)
        (List.range count) us) fun _ _ => False := by
  apply Ends.mapM (fun (before : List Nat) (us : List Traced) w' => w.Grows w' ∧
    List.Forall₂ (fun k u => u.Is (.leaf k) domain w' ∧ u.arena = i) before us)
  · exact ⟨.refl wf, .nil⟩
  · rintro before k after us w' eq ⟨grown, known⟩
    have below : k < (w'.arena i).size := by
      rw [(grown.arena i inside).size, size]
      exact List.mem_range.mp (eq ▸ by simp)
    apply (Traced.within_make_ends grown.after (Nat.lt_of_lt_of_le inside grown.size) rfl
      (Arena.leaf_makes (grown.after i) below)).weaken
    rintro u w'' ⟨grown', is, place⟩
    refine ⟨grown.trans grown', List.rel_append ?_ (.cons ⟨is, place⟩ .nil)⟩
    exact known.imp fun k u known => ⟨known.1.grow grown', known.2⟩

/-- The placeholders of a problem with unknowns are those of a new arena. -/
theorem Placeholders.create_ends (wf : w.WellFormed) {count : Int} (positive : 1 ≤ count)
    (domain : Domain Float) :
    Ends (Placeholders.create count domain) w (fun p w' => w.Grows w' ∧
      p.Are count.toNat domain w' ∧ p.time.arena = w.arenas.size ∧
        (w'.arena w.arenas.size).size = count.toNat) fun _ _ => False := by
  have created : Arena.create count w.arenas.size = .ok (.empty count.toNat w.arenas.size) := by
    rw [Arena.create, if_neg (by omega)]
  have grown₁ := Workspace.grows_push wf (Arena.wellFormed_empty count.toNat w.arenas.size)
  have inside : w.arenas.size < (w.push (.empty count.toNat w.arenas.size)).arenas.size := by
    simp [Workspace.push]
  have size : ((w.push (.empty count.toNat w.arenas.size)).arena w.arenas.size).size =
      count.toNat := congrArg Arena.size (Workspace.arena_push_self w _)
  unfold Placeholders.create
  apply Ends.bind
  apply Ends.get
  dsimp only
  rw [created]
  show Ends (_ >>= _) (w.push (.empty count.toNat w.arenas.size)) _ _
  generalize w.push (.empty count.toNat w.arenas.size) = w₁ at grown₁ inside size
  rw [← bind_assoc]
  apply Ends.bind
  apply (Traced.within_make_ends grown₁.after inside rfl
    (Arena.independent_makes (grown₁.after _))).weaken
  rintro e w₂ ⟨grown₂, time, place⟩
  have size₂ : (w₂.arena w.arenas.size).size = count.toNat := by
    rw [(grown₂.arena _ inside).size, size]
  have inside₂ := Nat.lt_of_lt_of_le inside grown₂.size
  apply Ends.bind
  apply (unknowns_end grown₂.after inside₂ size₂ domain).weaken
  rintro us w₃ ⟨grown₃, known⟩
  apply Ends.pure
  refine ⟨grown₁.trans (grown₂.trans grown₃), ⟨time.grow grown₃, ?_⟩, place, ?_⟩
  · exact known.imp fun k u known => ⟨known.1, known.2.trans place.symm⟩
  · rw [(grown₃.arena _ inside₂).size, size₂]

/-- The placeholders are those of a new arena, if there are any. -/
theorem Placeholders.create_leaves (count : Int) (domain : Domain Float) :
    Runs (Placeholders.create count domain) w fun w' p => p.Are count.toNat domain w' ∧
      p.time.arena = w.arenas.size ∧ (w'.arena w.arenas.size).size = count.toNat := by
  by_cases positive : 1 ≤ count
  · exact fun wf => (create_ends wf positive domain).mono (fun _ _ => id) fun _ _ => False.elim
  · have refused : Arena.create count w.arenas.size = .error .emptyRegistry := by
      rw [Arena.create, if_pos (by omega)]
    apply Runs.bindGet
    dsimp only
    rw [refused]
    exact Runs.thrown

/-- Placeholders are in a new arena, with as many unknowns as are asked for. -/
theorem Placeholders.create_runs {R : Tree → Domain Float → Prop} (count : Int)
    {domain : Domain Float} (leaves : Leaves R domain) :
    Runs (Placeholders.create count domain) w fun w' p => p.Fit R w' ∧
      p.time.arena = w.arenas.size ∧ (w'.arena w.arenas.size).size = count.toNat := by
  apply (create_leaves count domain).weaken
  exact fun p w' _ known => ⟨known.1.fit leaves, known.2⟩

end JetForm
