import JetForm.Proofs.Reduction.Lowerable
import JetForm.Proofs.Reduction.Statement

/-! # Breakpoints of a reduced problem

    External functions carry breakpoints.  While a problem is traced they travel
    beside the trees, in the domains of the expressions, and the reduction joins
    the domains of all equations and conditions.

    A domain `Spans` a tree if it has all breakpoints that the values in the tree
    carry, and no others but the extra ones of the placeholders.  Every operation
    inherits this, so no breakpoint of an equation or of a condition is lost.
    Right-hand sides are not traced: what they carry is missing in the result. -/

namespace JetForm

variable {points others extra : List Float}

/-! ## Gathered points -/

/-- The domain has the points, and no others but the extra ones. -/
structure Domain.Gathers (d : Domain Float) (points extra : List Float) : Prop where
  has : ∀ x, points.contains x → d.points.contains x
  only : ∀ x, d.points.contains x → points.contains x ∨ extra.contains x

namespace Domain.Gathers

variable {d e u : Domain Float}

theorem create (created : Domain.create points = .ok d) : d.Gathers points extra where
  has x hx := (contains_create created x).trans hx
  only x hx := Or.inl ((contains_create created x).symm.trans hx)

theorem union (left : d.Gathers points extra) (right : e.Gathers others extra)
    (union : d.union e = .ok u) : u.Gathers (points ++ others) extra where
  has x hx := by
    rw [contains_union union, Bool.or_eq_true]
    rw [List.contains_append, Bool.or_eq_true] at hx
    exact hx.imp (left.has x) (right.has x)
  only x hx := by
    rw [contains_union union, Bool.or_eq_true] at hx
    rw [List.contains_append, Bool.or_eq_true]
    rcases hx with hx | hx
    · exact (left.only x hx).imp_left Or.inl
    · exact (right.only x hx).imp_left Or.inr

/-- The order of the points does not matter. -/
theorem swap (gathers : d.Gathers (points ++ others) extra) :
    d.Gathers (others ++ points) extra where
  has x hx := by
    apply gathers.has
    rwa [List.contains_append, Bool.or_comm, ← List.contains_append]
  only x hx := by
    rw [List.contains_append, Bool.or_comm, ← List.contains_append]
    exact gathers.only x hx

/-- An extra point that is also one of the points need not be extra. -/
theorem drop (gathers : d.Gathers points (others ++ extra)) (among : others ⊆ points) :
    d.Gathers points extra where
  has := gathers.has
  only x hx := by
    rcases gathers.only x hx with hx | hx
    · exact Or.inl hx
    · rw [List.contains_append, Bool.or_eq_true] at hx
      refine hx.imp_left fun hx => ?_
      obtain ⟨y, hy, same⟩ := List.contains_iff_exists_mem_beq.mp hx
      exact List.contains_iff_exists_mem_beq.mpr ⟨y, among hy, same⟩

end Domain.Gathers

/-! ## What trees carry -/

/-- The breakpoints that a value carries. -/
def Value.breakpoints : Value → List Float
  | .number _ => []
  | .external f => f.breakpoints.getD []

theorem Value.breakpoints_key (v : Value) : v.key.breakpoints = v.breakpoints := by
  cases v <;> rfl

/-- A value extends a domain by the breakpoints that it carries. -/
theorem Value.Extends.gathers {v : Value} {d d' : Domain Float} (extended : v.Extends d d')
    (gathers : d.Gathers points extra) : d'.Gathers (points ++ v.breakpoints) extra := by
  unfold Extends at extended
  split at extended
  · next breakpoints =>
    obtain ⟨other, created, union⟩ := extended
    exact gathers.union (.create created) union
  · next plain =>
    have none : v.breakpoints = [] := by
      cases v with
      | number n => rfl
      | external f =>
        obtain ⟨name, law, _ | breakpoints⟩ := f
        · rfl
        · exact (plain name law breakpoints rfl).elim
    rwa [extended, none, List.append_nil]

/-- The breakpoints that the values in a tree carry. -/
def Tree.breakpoints : Tree → List Float
  | .leaf _ | .independent | .slot .. => []
  | .constant v => v.breakpoints
  | .unary _ c | .derivative c _ => c.breakpoints
  | .treeTree _ l r => l.breakpoints ++ r.breakpoints
  | .valueTree _ v c => v.breakpoints ++ c.breakpoints
  | .treeValue _ c v => c.breakpoints ++ v.breakpoints

/-- The breakpoints that the trees of some expressions carry. -/
def Workspace.breakpoints (w : Workspace) (es : List Traced) : List Float :=
  es.flatMap fun e => ((w.arena e.arena).expression e.handle).breakpoints

/-- The domain has the breakpoints that the tree carries, and no others but the
    extra ones. -/
abbrev Spans (extra : List Float) (t : Tree) (d : Domain Float) : Prop :=
  d.Gathers t.breakpoints extra

/-- Every operation spans what its operands span. -/
theorem inherited_spans (extra : List Float) : Inherited (Spans extra) where
  unary _ spans := spans
  derivative _ spans := spans
  treeTree _ left right union := left.union right union
  treeValue {_ _ _ v} _ spans extended := by
    show Domain.Gathers _ (_ ++ v.key.breakpoints) _
    rw [v.breakpoints_key]
    exact extended.gathers spans
  valueTree {_ _ _ v} _ spans extended := by
    show Domain.Gathers _ (v.key.breakpoints ++ _) _
    rw [v.breakpoints_key]
    exact (extended.gathers spans).swap

/-- Leaves carry nothing, and the breakpoints of their domains are extra. -/
theorem leavesWithin_spans (extra : List Float) : LeavesWithin (Spans extra) extra := by
  intro d within
  have leaf : d.Gathers [] extra := ⟨by simp, fun x hx => Or.inr (within x hx)⟩
  exact ⟨leaf, fun _ => leaf⟩

namespace FirstOrder

variable {w : Workspace}

/-! ## The domain of the result -/

/-- A joined domain spans the trees of all expressions. -/
theorem joinDomains_gathers {d : Domain Float} (gathers : d.Gathers points extra)
    {es : List Traced} (fit : ∀ e ∈ es, e.Fits (Spans extra) w) {w' : Workspace} :
    Runs (joinDomains d es) w' fun _ d' => d'.Gathers (points ++ w.breakpoints es) extra := by
  unfold joinDomains
  induction es generalizing d points with
  | nil => exact Runs.pure (by simpa [Workspace.breakpoints] using gathers)
  | cons e es ih =>
    rw [List.foldlM_cons]
    apply Runs.bindDomain
    intro d' union
    have first := gathers.union (fit e List.mem_cons_self).fits union
    apply (ih first fun e he => fit e (List.mem_cons_of_mem _ he)).weaken
    intro d'' _ _ rest
    rwa [List.append_assoc] at rest

/-- The expressions of the conditions, if there are any. -/
def conditionsOf (posed : Posed) (p : TracedProblem) (slots : SlotTable) :
    Tracing (List Traced) :=
  match conditionEnd posed with
  | none => return []
  | some (source, _) => conditionTrees p slots source

/-- The reduction that ended with the system `s` has traced the problem `p`,
    which left the workspace `w₁`, and later the conditions, which left `w₂`. -/
structure Traces (posed : Posed) (w : Workspace) (s : FirstOrderSystem) (p : TracedProblem)
    (w₁ : Workspace) (conditions : List Traced) (w₂ : Workspace) : Prop where
  equations : trace posed.operators posed.domain posed.orders w = .ok p w₁
  conditions : ∃ domain w', splitEquations p domain posed w₁ = .ok s.system w' ∧
    conditionsOf posed p s.system.slots w' = .ok conditions w₂

/-- The domain of the result has what the equations and conditions carry. -/
theorem reduce_gathers {posed : Posed} (keeps : posed.Keeps (Spans extra))
    (within : posed.domain ⊆ extra) (rhs : posed.rhs.Stored w) :
    Runs (reduce posed) w fun _ s => ∃ p w₁ conditions w₂, Traces posed w s p w₁ conditions w₂ ∧
      s.domain.Gathers
        (posed.domain ++ w₁.breakpoints p.equations ++ w₂.breakpoints conditions) extra := by
  unfold reduce
  dsimp only
  apply Runs.guarded
  have leaves : LeavesWithin (Spans extra) posed.domain :=
    (leavesWithin_spans extra).of_subset within
  apply Runs.bind (trace_fits keeps.operators leaves posed.orders).remember
  intro p w₁ grown₁ known
  obtain ⟨⟨fit, -⟩, traced⟩ := known
  apply Runs.bindDomain
  intro given created
  have equations : ∀ e ∈ p.equations, e.Fits (Spans extra) w₁ := fun e he => (fit.equations e he).1
  have unchanged := joinDomains_runs (w := w₁) given p.equations
  apply Runs.bind ((joinDomains_gathers (.create created) equations).and unchanged)
  intro domain w₂ later known
  obtain ⟨gathers, rfl⟩ := known
  have grows := splitEquations_grows fit.stored domain (rhs.grow grown₁)
  apply Runs.bind grows.remember
  intro system w₃ grown₃ known
  obtain ⟨⟨slots, -⟩, split⟩ := known
  apply Runs.bindGet
  apply Runs.bindExcept
  intro field _
  split
  next none =>
    -- without conditions nothing more is traced
    apply Runs.pure
    refine ⟨p, w₂, [], w₃, ⟨traced, domain, w₃, split, ?_⟩, ?_⟩
    · unfold conditionsOf
      rw [none]
      rfl
    · simpa [Workspace.breakpoints] using gathers
  next source endpoint found =>
    have source_keeps : source.Keeps (Spans extra) :=
      (given_of_conditionEnd found).elim (keeps.left source) (keeps.right source)
    apply Runs.bind (fixState_runs (inherited_spans extra) (fit.grow grown₃) domain slots
      posed.options source_keeps endpoint)
    intro fixed w₄ _ known
    obtain ⟨conditions, w₅, listed, wf₅, conditions_fit, joined⟩ := known
    apply Runs.pure
    refine ⟨p, w₂, conditions, w₅, ⟨traced, domain, w₃, split, ?_⟩, ?_⟩
    · unfold conditionsOf
      rw [found]
      exact listed
    · exact ((joinDomains_gathers gathers conditions_fit).of_ok wf₅ joined).2

end FirstOrder

namespace Statement

/-! ## The problem `u' = f` -/

/-- A rate that jumps in the middle of the unit interval. -/
def jumpRate : External := ⟨"f", .step 0.5 1 2, some [0, 0.5, 1]⟩

/-- The problem `u' = f` on the unit interval. -/
def jump : Statement where
  time := "t"
  unknowns := ["u"]
  parameters := some ["t", "u"]
  operators := [.formula (.diff (.symbol "u") (.literal (.number (.int 1))))]
  domain := [0, 1]
  orders := none
  rhs := .common (.external "f")
  left := none
  right := none
  options := {}
  externals := [("f", jumpRate)]

theorem jump_plain : jump.Plain where
  operators op listed := by
    cases List.mem_singleton.mp listed
    exact ⟨trivial, fun w => .number _⟩
  rhs := trivial
  left _ given := nomatch given
  right _ given := nomatch given

/-- The problem is posed with the function on the right. -/
theorem jump_posed : ∃ posed, jump.posed default = .ok posed default ∧
    FirstOrder.IsClimb posed (.external jumpRate) := by
  refine ⟨⟨[some ⟨some ["t", "u"], fun t us => Formula.eval
    (jump.scope.withPlaceholders ["t", "u"] t us)
    (.diff (.symbol "u") (.literal (.number (.int 1))))⟩], [0, 1], none,
    .common (.external jumpRate), none, none, {}⟩, ?_, ?_⟩
  · rfl
  · refine ⟨⟨_, rfl, rfl, ?_⟩, ⟨_, rfl, fun _ _ => rfl⟩, rfl, rfl, rfl, rfl, rfl⟩
    intro t u
    rfl

/-! ## All breakpoints -/

/-- **No breakpoint of an equation or of a condition is lost.**  The domain of a
    reduced problem has the given breakpoints and all that are carried by external
    functions in the traced equations and conditions.  Others come only from
    placeholders that are not those of the problem; the right-hand sides add
    none. -/
theorem breakpoints_gathered {p : Statement} (plain : p.Plain) {w w₀ w' : Workspace}
    (wf : w.WellFormed) {posed : Posed} (posing : p.posed w = .ok posed w₀) {s : FirstOrderSystem}
    (run : FirstOrder.reduce posed w₀ = .ok s w') :
    ∃ problem w₁ conditions w₂, FirstOrder.Traces posed w₀ s problem w₁ conditions w₂ ∧
      s.domain.Gathers
        (p.domain ++ w₁.breakpoints problem.equations ++ w₂.breakpoints conditions) p.foreign := by
  have leaves := leavesWithin_spans (p.domain ++ p.foreign)
  obtain ⟨grown, same, stored, keeps⟩ :=
    (posed_keeps (inherited_spans _) plain leaves.right).of_ok wf posing
  have within : posed.domain ⊆ p.domain ++ p.foreign := by
    rw [same]
    exact List.subset_append_left p.domain p.foreign
  obtain ⟨-, problem, w₁, conditions, w₂, traces, gathers⟩ :=
    (FirstOrder.reduce_gathers keeps within stored).of_ok grown.after run
  refine ⟨problem, w₁, conditions, w₂, traces, (same ▸ gathers).drop ?_⟩
  rw [List.append_assoc]
  exact List.subset_append_left _ _

/-- The hypotheses can be met. -/
theorem breakpoints_gathered_jump : ∃ posed w₀ s w', jump.posed default = .ok posed w₀ ∧
    FirstOrder.reduce posed w₀ = .ok s w' ∧
    ∃ problem w₁ conditions w₂, FirstOrder.Traces posed w₀ s problem w₁ conditions w₂ ∧
      s.domain.Gathers
        ([0, 1] ++ w₁.breakpoints problem.equations ++ w₂.breakpoints conditions) [] := by
  obtain ⟨posed, posing, climbs⟩ := jump_posed
  obtain ⟨s, w', run, -⟩ := (FirstOrder.reduce_climb climbs Workspace.wellFormed_default).exists_ok
  exact ⟨posed, default, s, w', posing, run,
    breakpoints_gathered jump_plain Workspace.wellFormed_default posing run⟩

/-- The function on the right jumps at a point that is not in the domain. -/
theorem jump_lost : ∃ posed s w', jump.posed default = .ok posed default ∧
    posed.rhs = .common (.external jumpRate) ∧
    (Value.external jumpRate).breakpoints.contains 0.5 = true ∧
    FirstOrder.reduce posed default = .ok s w' ∧ s.domain.points.contains 0.5 = false := by
  obtain ⟨posed, posing, climbs⟩ := jump_posed
  obtain ⟨s, w', run, -, created⟩ := (FirstOrder.reduce_climb climbs Workspace.wellFormed_default).exists_ok
  have rhs : posed.rhs = .common (.external jumpRate) := by
    cases posing
    rfl
  refine ⟨posed, s, w', posing, rhs, by decide +kernel, run, ?_⟩
  rw [Domain.contains_create created]
  decide +kernel

end Statement

end JetForm
