import JetForm.Proofs.Reduction.FirstOrder
import JetForm.Proofs.Trace.Formula
import JetForm.Reduction.Statement

/-! # Stated problems are lawful

    The functions of a problem that is stated by formulas evaluate formulas and
    call external functions, so they keep every relation between trees and
    domains that is inherited.  In particular they are lawful, and reducing such a
    problem preserves its solutions. -/

namespace JetForm

universe u

variable {R : Tree → Domain Float → Prop} {w : Workspace}

/-- The literals of an operator hold no expressions. -/
def StatedOperator.Plain : StatedOperator → Prop
  | .formula body => body.Plain
  | .value v => v.Plain

/-- The same for conditions. -/
def StatedConditions.Plain : StatedConditions → Prop
  | .formula body => body.Plain
  | .values vs => Formula.PlainAll vs
  | .value v => v.Plain

/-- The same for right-hand sides. -/
def StatedSides.Plain : StatedSides → Prop
  | .common v => v.Plain
  | .each vs => Formula.PlainAll vs

/-- The breakpoints that an operator brings along.  A value is evaluated outside
    of all placeholders, and only a function can stand for an operator. -/
def StatedOperator.foreign : StatedOperator → List Float
  | .formula body => body.foreign
  | .value _ => []

/-- The same for conditions, whose values are numbers. -/
def StatedConditions.foreign : StatedConditions → List Float
  | .formula body => body.foreign
  | .values _ | .value _ => []

namespace Statement

/-- The literals of a statement hold no expressions. -/
structure Plain (p : Statement) : Prop where
  operators : ∀ op ∈ p.operators, op.Plain
  rhs : p.rhs.Plain
  left : ∀ c, p.left = some c → c.Plain
  right : ∀ c, p.right = some c → c.Plain

/-- The breakpoints of placeholders that are not those of the problem. -/
def foreign (p : Statement) : List Float :=
  p.operators.flatMap StatedOperator.foreign ++
    (p.left.toList ++ p.right.toList).flatMap StatedConditions.foreign

/-- No names stand for anything outside of all placeholders. -/
theorem scope_fits (p : Statement) (w : Workspace) : p.scope.Fits R w := by
  intro entry he
  cases he

/-- Outside of all placeholders a formula gives what is stored. -/
theorem eval_runs (p : Statement) {f : Formula} (plain : f.Plain) :
    Runs (f.eval p.scope) w fun w' v => v.Stored w' := by
  apply (Formula.eval_yields inherited_always (p.scope_fits w) f plain .always).weaken
  exact fun _ _ _ fits => fits.stored

theorem evalAll_runs (p : Statement) {fs : List Formula} (plain : Formula.PlainAll fs) :
    Runs (Formula.evalAll p.scope fs) w fun w' vs => ∀ v ∈ vs, v.Stored w' := by
  apply (Formula.evalAll_runs inherited_always (p.scope_fits w) fs plain .always).weaken
  exact fun _ _ _ fits v hv => (fits v hv).stored

/-! ## Operators -/

theorem traced_fit {es : List Traced} (fit : ∀ e ∈ es, e.Fits R w) :
    ∀ v ∈ es.map Operand.traced, v.Fits R w := by
  intro v hv
  obtain ⟨e, he, rfl⟩ := List.mem_map.mp hv
  exact Operand.Fits.traced (fit e he)

/-- An external function keeps what its arguments have. -/
theorem keeps_of_operatorOf? (inherited : Inherited R) {v : Operand} {op : Operator}
    (found : operatorOf? v = some op) : op.Keeps R := by
  unfold operatorOf? at found
  split at found
  · cases found
    intro w t us ht hus
    apply Expression.call_yields inherited
    apply traced_fit
    intro e he
    rcases List.mem_cons.mp he with rfl | he
    · exact ht
    · exact hus e he
  · cases found

theorem operator_runs (inherited : Inherited R) (p : Statement) {op : StatedOperator}
    (plain : op.Plain) (leaves : LeavesWithin R op.foreign) :
    Runs (p.operator op) w fun _ ops => ∀ op, some op ∈ ops → op.Keeps R := by
  cases op with
  | formula body =>
    apply Runs.pure
    intro op listed
    cases List.mem_singleton.mp listed
    intro w t us ht hus
    have scope := (p.scope_fits w).withPlaceholders (p.time :: p.unknowns) ht hus
    exact Formula.eval_yields inherited scope body plain leaves
  | value v =>
    apply Runs.bind (p.eval_runs plain)
    intro v w' _ _
    split
    · apply Runs.pure
      intro op listed
      obtain ⟨item, -, found⟩ := List.mem_map.mp listed
      exact keeps_of_operatorOf? inherited found
    · apply Runs.pure
      intro op listed
      exact keeps_of_operatorOf? inherited (List.mem_singleton.mp listed).symm

theorem callables_runs (inherited : Inherited R) {p : Statement}
    (plain : ∀ op ∈ p.operators, op.Plain)
    (leaves : ∀ op ∈ p.operators, LeavesWithin R op.foreign) :
    Runs p.callables w fun _ ops => ∀ op, some op ∈ ops → op.Keeps R := by
  have each : Runs (p.operators.mapM p.operator) w fun _ lists =>
      ∀ ops ∈ lists, ∀ op, some op ∈ ops → op.Keeps R := by
    apply Runs.mapM_all
    · exact fun _ _ _ _ => id
    · exact fun op listed w' _ =>
        p.operator_runs inherited (plain op listed) (leaves op listed)
  unfold callables
  apply Runs.bind each
  intro lists w' _ keeps
  apply Runs.pure
  intro op listed
  obtain ⟨ops, hops, listed⟩ := List.mem_flatten.mp listed
  exact keeps ops hops op listed

/-! ## Conditions -/

theorem conditions_runs (inherited : Inherited R) (p : Statement) {given : Option StatedConditions}
    (plain : ∀ c, given = some c → c.Plain)
    (leaves : ∀ c, given = some c → LeavesWithin R c.foreign) :
    Runs (p.conditions given) w fun _ source => ∀ c, source = some c → c.Keeps R := by
  have none_keeps : ∀ c : ConditionSource, none = some c → c.Keeps R := fun _ found => nomatch found
  unfold conditions
  -- nothing given, a body, a list of values, or one value of any kind
  split
  · exact Runs.pure none_keeps
  · next body =>
    apply Runs.pure
    intro c same
    cases same
    intro w us hus
    have scope : ({ p.scope with names := p.unknowns.zip (us.map Operand.traced) } : Scope).Fits
        R w := Scope.fits_zip hus p.unknowns
    exact Formula.eval_yields inherited scope body (plain _ rfl) (leaves _ rfl)
  · next vs =>
    apply Runs.bind (p.evalAll_runs (plain _ rfl))
    intro items w' _ _
    apply Runs.pure
    intro c same
    cases same
    trivial
  · next v =>
    apply Runs.bind (p.eval_runs (plain _ rfl))
    intro v w' _ _
    split
    · apply Runs.pure
      intro c same
      cases same
      intro w us hus
      exact Expression.call_yields inherited _ (traced_fit hus)
    · exact Runs.pure none_keeps
    all_goals
      apply Runs.pure
      intro c same
      cases same
      trivial

/-! ## Right-hand sides -/

theorem sides_runs (p : Statement) {sides : StatedSides} (plain : sides.Plain) :
    Runs (sides.eval p.scope) w fun w' rhs => rhs.Stored w' := by
  have item : ∀ {w : Workspace} {v : Operand}, v.Stored w → ∀ e, v = .traced e → e.Stored w := by
    rintro w _ ⟨_⟩ e ⟨⟩
    assumption
  cases sides with
  | common v =>
    apply Runs.bind (p.eval_runs plain)
    intro v w' _ stored
    split
    · cases stored with
      | sequence stored => exact Runs.pure fun v hv => item (stored v hv)
    · exact Runs.pure (item stored)
  | each vs =>
    apply Runs.map
    apply (p.evalAll_runs plain).weaken
    exact fun vs _ _ stored v hv => item (stored v hv)

/-! ## Problems -/

/-- The functions of a stated problem keep what is inherited, and what stands on
    the right is stored. -/
theorem posed_keeps (inherited : Inherited R) {p : Statement} (plain : p.Plain)
    (leaves : LeavesWithin R p.foreign) :
    Runs p.posed w fun w' posed =>
      posed.domain = p.domain ∧ posed.rhs.Stored w' ∧ posed.Keeps R := by
  have operators : ∀ op ∈ p.operators, LeavesWithin R op.foreign := fun op listed =>
    leaves.left.of_subset fun _ hx => List.mem_flatMap.mpr ⟨op, listed, hx⟩
  have conditions : ∀ c ∈ p.left.toList ++ p.right.toList, LeavesWithin R c.foreign :=
    fun c given => leaves.right.of_subset fun _ hx => List.mem_flatMap.mpr ⟨c, given, hx⟩
  have left : ∀ c, p.left = some c → LeavesWithin R c.foreign :=
    fun c given => conditions c (by simp [given])
  have right : ∀ c, p.right = some c → LeavesWithin R c.foreign :=
    fun c given => conditions c (by simp [given])
  unfold posed
  apply Runs.bind (p.sides_runs plain.rhs)
  intro rhs w₁ _ stored
  apply Runs.bind (callables_runs inherited plain.operators operators)
  intro callables w₂ grown₂ keeps
  apply Runs.bind (p.conditions_runs inherited plain.left left)
  intro sourceLeft w₃ grown₃ keepsLeft
  apply Runs.bind (p.conditions_runs inherited plain.right right)
  intro sourceRight w₄ grown₄ keepsRight
  exact Runs.pure ⟨rfl, stored.grow (grown₂.trans (grown₃.trans grown₄)), keeps, keepsLeft,
    keepsRight⟩

/-- A stated problem is lawful. -/
theorem posed_runs {p : Statement} (plain : p.Plain) :
    Runs p.posed w fun _ posed => posed.Lawful := by
  apply (posed_keeps inherited_always plain .always).weaken
  exact fun _ _ _ known => known.2.2.lawful

variable {K : Type u} [Field K] {I : Interpretation K}

/-- Reducing a stated problem preserves its solutions: nothing has to be known
    of its functions. -/
theorem preserves_of_run (faithful : I.Faithful) {p : Statement} (plain : p.Plain)
    {w w₀ w' : Workspace} (wf : w.WellFormed) {posed : Posed} (posing : p.posed w = .ok posed w₀)
    {ys : Nat → K} (stand : posed.rhs.Stand I ys) {s : FirstOrderSystem}
    (run : FirstOrder.reduce posed w₀ = .ok s w') :
    ∃ problem w₁,
      FirstOrder.trace posed.operators posed.domain posed.orders w₀ = .ok problem w₁ ∧
      FirstOrder.Preserves I w₁ problem ys (w'.arena s.arena) s.system := by
  obtain ⟨grown, lawful⟩ := (posed_runs plain).of_ok wf posing
  exact ((FirstOrder.reduce_runs faithful lawful stand).of_ok grown.after run).2

end Statement

end JetForm
