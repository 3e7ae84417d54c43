import JetForm.Proofs.Trace.Operation
import JetForm.Trace.Formula

/-! # Formulas keep to what fits

    Evaluating a formula in a scope of operands that fit gives an operand that
    fits, if the literals in the formula hold no expressions and the leaves fit
    the domains that it brings along.  The induction is on the formula; its
    arguments are evaluated one after the other, and what has been evaluated
    stays as it is while the workspace grows. -/

namespace JetForm

variable {R : Tree → Domain Float → Prop} {w : Workspace}

/-! ## Functions of an array library -/

namespace ArrayFunction

theorem evaluateUnary_yields (name : String) (v : Operand) :
    Yields R (evaluateUnary name v) w := by
  unfold evaluateUnary
  split
  · exact Expression.array_yields _
  · exact Runs.throw

theorem evaluateBinary_yields (inherited : Inherited R) (name : String) {v x : Operand}
    (hv : v.Fits R w) (hx : x.Fits R w) : Yields R (evaluateBinary name v x) w := by
  unfold evaluateBinary
  split
  · exact Expression.array_yields _
  · exact Expression.array_yields _
  · exact Expression.array_yields _
  · split
    · exact Expression.arithmetic_yields inherited _ hv hx
    · exact Runs.throw
  · exact Runs.throw

theorem evaluate_yields (inherited : Inherited R) (name : String) {inputs : List Operand}
    (fits : ∀ v ∈ inputs, v.Fits R w) : Yields R (evaluate name inputs) w := by
  unfold evaluate
  split
  · exact evaluateUnary_yields name _
  · exact evaluateBinary_yields inherited name (fits _ (by simp)) (fits _ (by simp))
  · exact Runs.throw

theorem record_yields (inherited : Inherited R) (name : String) (e : Traced) {inputs : List Operand}
    (fits : ∀ v ∈ inputs, v.Fits R w) : Yields R (record name e inputs) w := by
  unfold record
  split
  · next op e _ =>
    have known : e.Fits R w := (fits (.traced e) (by simp)).of_traced
    exact Yields.traced (Traced.apply_runs inherited op known)
  · exact Yields.traced (Expression.combine_runs inherited _ (fits _ (by simp)) (fits _ (by simp)))
  · exact Runs.throwAfter (Traced.firstVar_runs e)

theorem invoke_yields (inherited : Inherited R) (name : String) (count : Nat) (keyword : Bool)
    {args : List Operand} (fits : ∀ v ∈ args, v.Fits R w) :
    Yields R (invoke name count keyword args) w := by
  have inputs : ∀ v ∈ args.take count, v.Fits R w := fun v hv => fits v (List.mem_of_mem_take hv)
  unfold invoke
  apply Runs.guarded
  dsimp only
  split
  · split
    · exact Runs.throwAfter (Traced.firstVar_runs _)
    · exact record_yields inherited name _ inputs
  · split
    · exact evaluate_yields inherited name inputs
    · exact Runs.throw

theorem invokeMethod_yields (inherited : Inherited R) (name : String) (count : Nat)
    (method : String) {args : List Operand} (fits : ∀ v ∈ args, v.Fits R w) :
    Yields R (invokeMethod name count method args) w := by
  unfold invokeMethod
  dsimp only
  split
  · exact invoke_yields inherited name count false fits
  case h_7 => exact Runs.throw
  -- all methods that fold check the inputs of the function, then the arguments
  all_goals
    apply Runs.guarded
    apply Runs.guarded
    split
    · exact Runs.throwAfter (Traced.firstVar_runs _)
    · exact Runs.throw

theorem call_yields (inherited : Inherited R) (name : String) (style : CallStyle)
    {args : List Operand} (fits : ∀ v ∈ args, v.Fits R w) : Yields R (call name style args) w := by
  unfold call
  dsimp only
  split
  · split
    · exact invokeMethod_yields inherited _ 2 "reduce" fits
    · exact Runs.throw
  · split
    · exact invokeMethod_yields inherited _ 2 "reduce" fits
    · exact Runs.throw
  · exact Runs.throw
  · exact invoke_yields inherited _ _ false fits
  · exact invoke_yields inherited _ _ true fits
  · exact invokeMethod_yields inherited _ _ _ fits

end ArrayFunction

/-! ## Scopes -/

namespace Scope

/-- All names stand for operands that fit. -/
def Fits (R : Tree → Domain Float → Prop) (w : Workspace) (s : Scope) : Prop :=
  ∀ entry ∈ s.names, entry.2.Fits R w

theorem Fits.grow {w' : Workspace} {s : Scope} (fits : s.Fits R w) (grown : w.Grows w') :
    s.Fits R w' :=
  fun entry he => (fits entry he).grow grown

theorem Fits.lookup {s : Scope} (fits : s.Fits R w) {name : String} {v : Operand}
    (found : s.names.lookup name = some v) : v.Fits R w := by
  obtain ⟨l₁, l₂, same, -⟩ := List.lookup_eq_some_iff.mp found
  exact fits (name, v) (by simp [same])

theorem Fits.bind {s : Scope} (fits : s.Fits R w) (name : String) {v : Operand}
    (known : v.Fits R w) : (s.bind name v).Fits R w := by
  intro entry he
  rcases List.mem_cons.mp he with rfl | he
  · exact known
  · exact fits entry he

/-- Names of expressions that fit. -/
theorem fits_zip {es : List Traced} (known : ∀ e ∈ es, e.Fits R w) (names : List String) :
    ∀ entry ∈ names.zip (es.map Operand.traced), entry.2.Fits R w := by
  intro entry he
  obtain ⟨e, he, same⟩ := List.mem_map.mp (List.of_mem_zip he).2
  rw [← same]
  exact Operand.Fits.traced (known e he)

theorem Fits.withPlaceholders {s : Scope} (fits : s.Fits R w) (names : List String)
    {time : Traced} {unknowns : List Traced} (ht : time.Fits R w)
    (hu : ∀ u ∈ unknowns, u.Fits R w) : (s.withPlaceholders names time unknowns).Fits R w := by
  have known : ∀ e ∈ time :: unknowns, e.Fits R w := by
    intro e he
    rcases List.mem_cons.mp he with rfl | he
    · exact ht
    · exact hu e he
  intro entry he
  rcases List.mem_append.mp he with he | he
  · exact fits_zip known names entry (List.mem_reverse.mp he)
  · exact fits entry he

end Scope

/-! ## Evaluation -/

namespace Formula

mutual

/-- The literals in a formula hold no expressions. -/
def Plain : Formula → Prop
  | .symbol _ | .double _ | .wide _ | .external _ => True
  | .literal v => ∀ w, v.Stored w
  | .list items => PlainAll items
  | .sign _ x | .elementary _ x | .convert _ x | .attribute _ x | .apply _ x => x.Plain
  | .arithmetic _ l r | .unruled _ l r | .combine _ l r => l.Plain ∧ r.Plain
  | .diff x order | .ownDiff x order => x.Plain ∧ order.Plain
  | .arrayFunction _ _ args => PlainAll args
  | .elsewhere _ _ _ body => body.Plain

/-- The same for all formulas of a list. -/
def PlainAll : List Formula → Prop
  | [] => True
  | f :: rest => f.Plain ∧ PlainAll rest

end

mutual

/-- The breakpoints that a formula brings along with placeholders of its own. -/
def foreign : Formula → List Float
  | .symbol _ | .double _ | .wide _ | .external _ | .literal _ => []
  | .list items => foreignAll items
  | .sign _ x | .elementary _ x | .convert _ x | .attribute _ x | .apply _ x => x.foreign
  | .arithmetic _ l r | .unruled _ l r | .combine _ l r => l.foreign ++ r.foreign
  | .diff x order | .ownDiff x order => x.foreign ++ order.foreign
  | .arrayFunction _ _ args => foreignAll args
  | .elsewhere _ _ points body => points ++ body.foreign

/-- The same for all formulas of a list. -/
def foreignAll : List Formula → List Float
  | [] => []
  | f :: rest => f.foreign ++ foreignAll rest

end

/-- Two operands, evaluated from left to right. -/
theorem bind_yields {x y : Tracing Operand} {f : Operand → Operand → Tracing Operand}
    (left : Yields R x w) (right : ∀ w', w.Grows w' → Yields R y w')
    (next : ∀ w' l r, l.Fits R w' → r.Fits R w' → Yields R (f l r) w') :
    Yields R (do
      let l ← x
      let r ← y
      f l r) w := by
  apply Runs.bind left
  intro l w' grown hl
  apply Runs.bind (right w' grown)
  intro r w'' grown' hr
  exact next w'' l r (hl.grow grown') hr

mutual

theorem eval_yields (inherited : Inherited R) {w : Workspace} {s : Scope} (fits : s.Fits R w) :
    (f : Formula) → f.Plain → LeavesWithin R f.foreign → Yields R (f.eval s) w
  | .symbol name, _, _ => by
    unfold eval
    split
    next v found => exact Runs.pure (fits.lookup found)
    next => exact Runs.throw
  | .double x, _, _ => by
    unfold eval
    exact Yields.number (Workspace.literal_runs x)
  | .wide x, _, _ => by
    unfold eval
    exact Yields.number (Workspace.entryLiteral_runs _)
  | .literal v, plain, _ => by
    unfold eval
    exact Runs.pure (Operand.Fits.of_plain plain)
  | .external name, _, _ => by
    unfold eval
    split
    · exact Runs.pure (Operand.Fits.external _)
    · exact Runs.throw
  | .list items, plain, leaves => by
    unfold eval
    apply Runs.map
    apply (evalAll_runs inherited fits items plain leaves).weaken
    exact fun vs _ _ known => Operand.Fits.sequence known
  | .sign g x, plain, leaves => by
    unfold eval
    apply Runs.bind (eval_yields inherited fits x plain leaves)
    exact fun v _ _ known => Expression.sign_yields inherited g known
  | .elementary op x, plain, leaves => by
    unfold eval
    apply Runs.bind (eval_yields inherited fits x plain leaves)
    exact fun v _ _ known => Expression.elementary_yields inherited op known
  | .arithmetic op l r, plain, leaves => by
    unfold eval
    apply bind_yields (eval_yields inherited fits l plain.1 leaves.left)
    · exact fun w' grown => eval_yields inherited (fits.grow grown) r plain.2 leaves.right
    · exact fun w' x y hx hy => Expression.arithmetic_yields inherited op hx hy
  | .unruled op l r, plain, leaves => by
    unfold eval
    apply bind_yields (eval_yields inherited fits l plain.1 leaves.left)
    · exact fun w' grown => eval_yields inherited (fits.grow grown) r plain.2 leaves.right
    · exact fun w' x y _ hy => Expression.unruled_yields op hy
  | .convert c x, plain, leaves => by
    unfold eval
    apply Runs.bind (eval_yields inherited fits x plain leaves)
    exact fun v _ _ known => Expression.convert_yields c known
  | .diff x order, plain, leaves => by
    unfold eval
    apply bind_yields (eval_yields inherited fits x plain.1 leaves.left)
    · exact fun w' grown => eval_yields inherited (fits.grow grown) order plain.2 leaves.right
    · exact fun w' v order hv _ => Expression.diff_yields inherited hv order
  | .ownDiff x order, plain, leaves => by
    unfold eval
    apply bind_yields (eval_yields inherited fits x plain.1 leaves.left)
    · exact fun w' grown => eval_yields inherited (fits.grow grown) order plain.2 leaves.right
    · exact fun w' v order hv _ => Expression.ask_yields inherited hv _
  | .attribute name x, plain, leaves => by
    unfold eval
    apply Runs.bind (eval_yields inherited fits x plain leaves)
    exact fun v _ _ known => Expression.ask_yields inherited known _
  | .apply name x, plain, leaves => by
    unfold eval
    apply Runs.bind (eval_yields inherited fits x plain leaves)
    exact fun v _ _ known => Expression.ask_yields inherited known _
  | .combine op l r, plain, leaves => by
    unfold eval
    apply bind_yields (eval_yields inherited fits l plain.1 leaves.left)
    · exact fun w' grown => eval_yields inherited (fits.grow grown) r plain.2 leaves.right
    · exact fun w' x y hx hy => Yields.traced (Expression.combine_runs inherited op hx hy)
  | .arrayFunction name style args, plain, leaves => by
    unfold eval
    apply Runs.bind (evalAll_runs inherited fits args plain leaves)
    exact fun vs _ _ known => ArrayFunction.call_yields inherited name style known
  -- a formula elsewhere has placeholders of its own, and sees no other names
  | .elsewhere names count points body, plain, leaves => by
    unfold eval
    apply Runs.bindDomain
    intro domain created
    apply Runs.bind (Placeholders.create_runs count (leaves.left.create created))
    intro p w' _ known
    obtain ⟨placed, -⟩ := known
    have empty : ({ s with names := [] } : Scope).Fits R w' := by
      intro entry he
      cases he
    have scope := empty.withPlaceholders names placed.time fun u hu => (placed.unknowns u hu).1
    exact eval_yields inherited scope body plain leaves.right

theorem evalAll_runs (inherited : Inherited R) {w : Workspace} {s : Scope} (fits : s.Fits R w) :
    (fs : List Formula) → PlainAll fs → LeavesWithin R (foreignAll fs) →
      Runs (evalAll s fs) w fun w' vs => ∀ v ∈ vs, v.Fits R w'
  | [], _, _ => by
    unfold evalAll
    exact Runs.pure (by simp)
  | f :: rest, plain, leaves => by
    unfold evalAll
    apply Runs.bind (eval_yields inherited fits f plain.1 leaves.left)
    intro v w' grown first
    apply Runs.bind (evalAll_runs inherited (fits.grow grown) rest plain.2 leaves.right)
    intro vs w'' grown' others
    apply Runs.pure
    intro x hx
    rcases List.mem_cons.mp hx with rfl | hx
    · exact first.grow grown'
    · exact others x hx

end

/-- Repeated evaluation; each result stands in the scope of the next. -/
theorem iterate_yields (inherited : Inherited R) {s : Scope} (fits : s.Fits R w) {f : Formula}
    (plain : f.Plain) (leaves : LeavesWithin R f.foreign) (count : Nat) {x : Operand}
    (known : x.Fits R w) : Yields R (iterate s f count x) w := by
  induction count generalizing w x with
  | zero => exact Runs.pure known
  | succ count ih =>
    unfold iterate
    apply Runs.bind (eval_yields inherited (fits.bind "_" known) f plain leaves)
    intro y w' grown known'
    exact ih (fits.grow grown) known'

end Formula

end JetForm
