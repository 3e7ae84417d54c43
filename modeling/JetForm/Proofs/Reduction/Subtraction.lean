import JetForm.Proofs.Reduction.FirstOrder
import JetForm.Proofs.Reduction.Sides

/-! # Right-hand sides that are subtracted

    For the equations `L(u) = r` there are the equations `L(u) - r = 0`.  If `r` is
    an expression of the time they are reduced to the same first-order system.
    The two are not made in the same way: on the right `r` is taken as it is, and
    on the left it goes through all the stages of an equation. -/

namespace JetForm

/-! ## The two problems -/

/-- Subtract one expression from another. -/
def Traced.less (e r : Traced) : Tracing Traced :=
  Expression.combine BinaryOp.minus.name (.traced e) (.traced r)

/-- The operator that applies several ones, and subtracts an expression from all
    their equations. -/
def Operator.less (op : Operator) (others : List Operator) (r : Traced) : Operator where
  parameters := op.parameters
  apply t us := do
    let equations ← (op :: others).mapM (FirstOrder.equationsOf ⟨t, us⟩ !others.isEmpty)
    let differences ← equations.flatten.mapM (·.less r)
    return .sequence (differences.map .traced)

/-- The operators with an expression subtracted.  What cannot be called stays as
    it is. -/
def lessOperators (operators : List (Option Operator)) (r : Traced) : List (Option Operator) :=
  match operators.mapM id with
  | some (op :: others) => [some (op.less others r)]
  | _ => operators

namespace Posed

/-- The problem `L(u) = r`. -/
def equals (posed : Posed) (r : Traced) : Posed :=
  { posed with rhs := .common (.traced r) }

/-- The problem `L(u) - r = 0`. -/
def less (posed : Posed) (r : Traced) : Posed :=
  { posed with
    operators := lessOperators posed.operators r
    rhs := .common (.number (.int 0)) }

end Posed

/-! ## Subtracting one expression -/

/-- An expression that is stored elsewhere, reads nothing but the time and brings
    in no breakpoints is subtracted without a failure. -/
theorem Traced.less_exact {w : Workspace} (wf : w.WellFormed) {e r : Traced} (left : e.Stored w)
    (right : r.Stored w) (apart : e.arena ≠ r.arena)
    (size : (w.arena r.arena).size = (w.arena e.arena).size)
    (low : ((w.arena r.arena).expression r.handle).lowered 0 = true)
    (domain : e.domain.union r.domain = .ok e.domain) :
    Ends (e.less r) w (fun e' w' => w.Grows w' ∧ e'.Stored w' ∧ e'.arena = e.arena ∧
      e'.domain = e.domain ∧ (w'.arena e.arena).expression e'.handle =
        ((w.arena e.arena).expression e.handle).less ((w.arena r.arena).expression r.handle))
      fun _ _ => False := by
  have minus : BinaryOp.ofName? BinaryOp.minus.name = some .minus := by decide
  -- the value of the result; that the arenas grow is the general fact about `combine` used below
  have built : Ends (e.less r) w (fun e' w' => e'.domain = e.domain ∧
      (w'.arena e.arena).expression e'.handle =
        ((w.arena e.arena).expression e.handle).less ((w.arena r.arena).expression r.handle))
      fun _ _ => False := by
    unfold Traced.less Expression.combine Expression.bring
    apply Ends.bind
    rw [if_neg apart.symm]
    apply Ends.bind
    apply Ends.get
    apply Ends.within
    apply (Arena.adopt_exact (wf r.arena) (wf e.arena) right.inside).mono
    · intro h a made
      apply Ends.bind
      rw [domain]
      show Ends _ _ _ _
      apply Ends.bind
      apply Ends.within
      rw [Workspace.arena_put_self left.arena]
      unfold Expression.binary
      rw [minus]
      apply (Arena.treeTree_makes made.wellFormed .minus (made.grown.lt_count left.inside)
        made.inside).weaken
      intro g b made'
      apply Ends.make
      have inside : e.arena < (w.put e.arena a).arenas.size := by
        simp [Workspace.put, left.arena]
      refine ⟨rfl, ?_⟩
      show (((w.put e.arena a).put e.arena b).arena e.arena).expression g = _
      rw [Workspace.arena_put_self inside, made'.expression, made.expression,
        made.grown.expression (wf e.arena) left.inside]
      rfl
    · rintro _ _ (different | broken)
      · exact different size
      · rw [Tree.solid_of_lowered low] at broken
        cases broken
  have runs := Expression.combine_runs inherited_always BinaryOp.minus.name
    (.traced (Traced.fits_true.mpr left)) (.traced (Traced.fits_true.mpr right)) wf
  apply (runs.and built).mono
  · rintro e' w' ⟨⟨grown, fits, place⟩, same, expression⟩
    exact ⟨grown, fits.stored, place e rfl, same, expression⟩
  · exact fun _ _ => And.right

namespace FirstOrder

/-! ## Tracing the difference -/

/-- An expression is subtracted from all equations of a problem. -/
theorem less_equations {w : Workspace} (wf : w.WellFormed) {p : TracedProblem} (stored : p.Stored w)
    {r : Traced} (right : r.Stored w) (apart : p.arena ≠ r.arena)
    (size : (w.arena r.arena).size = (w.arena p.arena).size)
    (low : ((w.arena r.arena).expression r.handle).lowered 0 = true)
    (domains : ∀ e ∈ p.equations, e.domain.union r.domain = .ok e.domain) :
    Ends (p.equations.mapM (·.less r)) w (fun es w' => w.Grows w' ∧
      (∀ e ∈ es, e.Stored w' ∧ e.arena = p.arena) ∧
      es.map Traced.domain = p.equations.map Traced.domain ∧
      es.map (fun e => (w'.arena p.arena).expression e.handle) =
        p.equations.map fun e => ((w.arena p.arena).expression e.handle).less
          ((w.arena r.arena).expression r.handle))
      fun _ _ => False := by
  apply Ends.mapM (fun before es w' => w.Grows w' ∧
    (∀ e ∈ es, e.Stored w' ∧ e.arena = p.arena) ∧
    es.map Traced.domain = before.map Traced.domain ∧
    es.map (fun e => (w'.arena p.arena).expression e.handle) =
      before.map fun e => ((w.arena p.arena).expression e.handle).less
        ((w.arena r.arena).expression r.handle))
  · exact ⟨Workspace.Grows.refl wf, by simp, rfl, rfl⟩
  · rintro before e after es w' eq ⟨grown, known, same, trees⟩
    have listed : e ∈ p.equations := by simp [eq]
    obtain ⟨left, place⟩ := stored.equations e listed
    have right_tree := grown.expression right.arena right.inside
    have left_tree := grown.expression left.arena left.inside
    have sizes : (w'.arena r.arena).size = (w'.arena e.arena).size := by
      rw [(grown.arena r.arena right.arena).size, (grown.arena e.arena left.arena).size, place, size]
    apply (Traced.less_exact grown.after (left.grow grown) (right.grow grown)
      (place.symm ▸ apart) sizes (right_tree.symm ▸ low) (domains e listed)).weaken
    rintro e' w'' ⟨grown', stored', place', same', tree'⟩
    rw [place, right_tree] at tree'
    rw [place] at left_tree
    have here : p.arena < w'.arenas.size := Nat.lt_of_lt_of_le stored.arena grown.size
    refine ⟨grown.trans grown', ?_, ?_, ?_⟩
    · intro d hd
      rcases List.mem_append.mp hd with hd | hd
      · exact ⟨(known d hd).1.grow grown', (known d hd).2⟩
      · obtain rfl := List.mem_singleton.mp hd
        exact ⟨stored', place'.trans place⟩
    · rw [List.map_append, List.map_append, same, List.map_singleton, List.map_singleton, same']
    -- what the earlier steps built is not touched when a later one pushes to the same arena
    · have kept : es.map (fun e => (w''.arena p.arena).expression e.handle) =
          es.map fun e => (w'.arena p.arena).expression e.handle := by
        apply List.map_congr_left
        intro d hd
        obtain ⟨records, place⟩ := known d hd
        exact grown'.expression here (place ▸ records.inside)
      rw [List.map_append, List.map_append, kept, trees, List.map_singleton, List.map_singleton,
        tree', left_tree]

/-- Expressions of an arena are taken as they are. -/
theorem expressions_traced {i : Nat} {what : String} {es : List Traced}
    (place : ∀ e ∈ es, e.arena = i) (w : Workspace) :
    expressions i what (.sequence (es.map .traced)) w = .ok es w := by
  unfold expressions
  dsimp only
  induction es with
  | nil => rfl
  | cons e es ih =>
    have rest := ih fun e he => place e (List.mem_cons_of_mem _ he)
    rw [List.map_cons, List.mapM_cons]
    dsimp only
    rw [if_pos (place e List.mem_cons_self), pure_bind, run_bind rest]
    rfl

/-- The equations of a difference are the differences of the equations. -/
theorem equationsOf_less (p : Placeholders) (op : Operator) (others : List Operator) (r : Traced) :
    equationsOf p false (op.less others r) = (do
      let equations ← (op :: others).mapM (equationsOf p !others.isEmpty)
      let differences ← equations.flatten.mapM (·.less r)
      expressions p.time.arena "Operator" (.sequence (differences.map .traced))) := by
  unfold equationsOf
  simp only [Operator.less, bind_assoc, pure_bind, Bool.false_and, Bool.false_eq_true, if_false,
    bind_pure]
  rfl

/-- Tracing the difference is tracing the operators, and subtracting the
    expression from all equations. -/
theorem trace_less (operators : List (Option Operator)) (r : Traced) (points : List Float)
    (orders : Option (List Number)) :
    trace (lessOperators operators r) points orders = (do
      let p ← trace operators points orders
      let differences ← p.equations.mapM (·.less r)
      let equations ← expressions p.arena "Operator" (.sequence (differences.map .traced))
      return { p with equations }) := by
  unfold lessOperators
  cases all : operators.mapM id with
  | none =>
    unfold trace
    simp only [all]
    rfl
  | some ops =>
    cases ops with
    | nil =>
      unfold trace
      simp only [all]
      rfl
    | cons op others =>
      have single : [some (op.less others r)].mapM id = some [op.less others r] := rfl
      have names : unknownNames (op.less others r) orders = unknownNames op orders := rfl
      unfold trace
      dsimp only
      rw [single, all]
      dsimp only
      simp only [names, List.isEmpty_nil, Bool.not_true, List.mapM_cons (f := equationsOf _ false),
        List.mapM_nil, equationsOf_less, bind_assoc, pure_bind, List.flatten_cons,
        List.flatten_nil, List.append_nil]

end FirstOrder

end JetForm
