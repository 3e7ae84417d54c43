import JetForm.Proofs.Trace.Workspace
import JetForm.Trace.Expression

/-! # Operations keep expressions stored

    Applied to stored operands, an operation gives a stored result.  An
    expression is recorded in the arena of an operand, after the other operand
    has been copied there or interned; everything else leaves the arenas as they
    are.

    The domain travels beside the tree.  A relation between the two that is
    `Inherited` from operands to results holds of everything that is traced; the
    relation that always holds says that results are stored. -/

namespace JetForm

/-- All expressions in an operand are stored. -/
inductive Operand.Stored (w : Workspace) : Operand → Prop where
  | traced {e : Traced} (stored : e.Stored w) : Stored w (.traced e)
  | number (n : Number) : Stored w (.number n)
  | array (x : HeldArray) : Stored w (.array x)
  | external (f : External) : Stored w (.external f)
  | text (s : String) : Stored w (.text s)
  | nothing : Stored w .nothing
  | sequence {items : List Operand} (stored : ∀ v ∈ items, Stored w v) : Stored w (.sequence items)

/-- Every expression in an operand fits. -/
inductive Operand.Fits (R : Tree → Domain Float → Prop) (w : Workspace) : Operand → Prop where
  | traced {e : Traced} (fits : e.Fits R w) : Fits R w (.traced e)
  | number (n : Number) : Fits R w (.number n)
  | array (x : HeldArray) : Fits R w (.array x)
  | external (f : External) : Fits R w (.external f)
  | text (s : String) : Fits R w (.text s)
  | nothing : Fits R w .nothing
  | sequence {items : List Operand} (fits : ∀ v ∈ items, Fits R w v) : Fits R w (.sequence items)

namespace Operand.Fits

variable {R : Tree → Domain Float → Prop} {w : Workspace}

theorem grow {w' : Workspace} {v : Operand} (fits : v.Fits R w) (grown : w.Grows w') :
    v.Fits R w' := by
  induction fits with
  | traced fits => exact .traced (fits.grow grown)
  | number n => exact .number n
  | array x => exact .array x
  | external f => exact .external f
  | text s => exact .text s
  | nothing => exact .nothing
  | sequence _ ih => exact .sequence ih

theorem of_traced {e : Traced} (fits : (Operand.traced e).Fits R w) : e.Fits R w := by
  cases fits with
  | traced fits => exact fits

theorem of_sequence {items : List Operand} (fits : (Operand.sequence items).Fits R w) :
    ∀ v ∈ items, v.Fits R w := by
  cases fits with
  | sequence fits => exact fits

theorem of_stored {v : Operand} (stored : v.Stored w) : v.Fits (fun _ _ => True) w := by
  induction stored with
  | traced stored => exact .traced (Traced.fits_true.mpr stored)
  | number n => exact .number n
  | array x => exact .array x
  | external f => exact .external f
  | text s => exact .text s
  | nothing => exact .nothing
  | sequence _ ih => exact .sequence ih

theorem stored {v : Operand} (fits : v.Fits R w) : v.Stored w := by
  induction fits with
  | traced fits => exact .traced fits.stored
  | number n => exact .number n
  | array x => exact .array x
  | external f => exact .external f
  | text s => exact .text s
  | nothing => exact .nothing
  | sequence _ ih => exact .sequence ih

/-- What is stored in every workspace holds no expressions. -/
theorem of_plain {v : Operand} (plain : ∀ w, v.Stored w) : v.Fits R w := by
  have empty := plain default
  induction empty with
  | traced stored => exact absurd stored.arena (Nat.not_lt_zero _)
  | number n => exact .number n
  | array x => exact .array x
  | external f => exact .external f
  | text s => exact .text s
  | nothing => exact .nothing
  | sequence _ ih =>
    refine .sequence fun v hv => ih v hv fun w => ?_
    cases plain w with
    | sequence stored => exact stored v hv

end Operand.Fits

/-! ## Relations between trees and domains -/

/-- Domain `d'` is `d` with the breakpoints that a value carries. -/
def Value.Extends (d d' : Domain Float) : Value → Prop
  | .external ⟨_, _, some points⟩ =>
    ∃ other, Domain.create points = .ok other ∧ d.union other = .ok d'
  | _ => d' = d

/-- Results of operations are related if their operands are.  In a tree the
    values are known up to their keys. -/
structure Inherited (R : Tree → Domain Float → Prop) : Prop where
  unary {t : Tree} {d : Domain Float} (op : UnaryOp) (known : R t d) : R (.unary op t) d
  derivative {t : Tree} {d : Domain Float} (k : Nat) (known : R t d) : R (.derivative t k) d
  treeTree {l r : Tree} {d e u : Domain Float} (op : BinaryOp) (left : R l d) (right : R r e)
    (union : d.union e = .ok u) : R (.treeTree op l r) u
  valueTree {t : Tree} {d d' : Domain Float} {v : Value} (op : BinaryOp) (known : R t d)
    (extended : v.Extends d d') : R (.valueTree op v.key t) d'
  treeValue {t : Tree} {d d' : Domain Float} {v : Value} (op : BinaryOp) (known : R t d)
    (extended : v.Extends d d') : R (.treeValue op t v.key) d'

theorem inherited_always : Inherited fun _ _ => True :=
  ⟨fun _ _ => trivial, fun _ _ => trivial, fun _ _ _ _ => trivial, fun _ _ _ => trivial,
    fun _ _ _ => trivial⟩

variable {w : Workspace} {R : Tree → Domain Float → Prop}

/-- A message that names what an expression depends on. -/
theorem Runs.throwAfter {α β : Type} {x : Tracing α} {known : Workspace → α → Prop}
    {f : α → Error} {P : Workspace → β → Prop} (h : Runs x w known) :
    Runs (x >>= fun v => MonadExcept.throw (f v)) w P :=
  Runs.bind h fun _ _ _ _ => Runs.throw

/-! ## Texts -/

namespace Operand

mutual

theorem written_runs (w : Workspace) : (v : Operand) → Runs v.written w fun _ _ => True
  | .traced e => by
    unfold written
    apply Runs.bindGet
    exact Runs.bind Runs.checked fun _ _ _ _ => Runs.pure trivial
  | .number _ | .array _ | .text _ | .nothing => by
    unfold written
    exact Runs.pure trivial
  | .external f => by
    unfold written
    split <;> first | exact Runs.pure trivial | simp_all
  | .sequence items => by
    unfold written
    exact Runs.bind (writtenAll_runs w items) fun _ _ _ _ => Runs.pure trivial

theorem writtenAll_runs (w : Workspace) :
    (vs : List Operand) → Runs (writtenAll vs) w fun _ _ => True
  | [] => by
    unfold writtenAll
    exact Runs.pure trivial
  | v :: rest => by
    unfold writtenAll
    apply Runs.bind (written_runs w v)
    intro _ w' _ _
    exact Runs.bind (writtenAll_runs w' rest) fun _ _ _ _ => Runs.pure trivial

end

end Operand

/-! ## One operand -/

namespace Traced

variable {e : Traced}

theorem firstVar_runs (e : Traced) : Runs e.firstVar w fun _ _ => True := by
  unfold firstVar info
  rw [bind_assoc]
  apply Runs.bindGet
  exact Runs.bind (Runs.pure (P := fun _ _ => True) trivial) fun _ _ _ _ => Runs.pure trivial

theorem refuse_runs {α : Type} {P : Workspace → α → Prop} (e : Traced) (op : String) :
    Runs (e.refuse op) w P :=
  Runs.throwAfter (firstVar_runs e)

theorem unary_runs (inherited : Inherited R) (op : UnaryOp) (fits : e.Fits R w) :
    Runs (e.unary op) w fun w' r => r.Fits R w' ∧ r.arena = e.arena := by
  apply within_make_runs fits.arena
  intro wf
  apply (Arena.unary_makes wf op fits.inside).mono
  · exact fun h a made => ⟨_, made, fits.recorded, inherited.unary op fits.fits⟩
  · exact fun _ _ _ => trivial

theorem apply_runs (inherited : Inherited R) (name : String) (fits : e.Fits R w) :
    Runs (e.apply name) w fun w' r => r.Fits R w' ∧ r.arena = e.arena := by
  unfold apply
  split
  · exact unary_runs inherited _ fits
  · exact Runs.throwAfter (firstVar_runs e)

theorem diff_runs (inherited : Inherited R) (order : Operand) (fits : e.Fits R w) :
    Runs (e.diff order) w fun w' r => r.Fits R w' ∧ r.arena = e.arena := by
  unfold diff
  dsimp only
  split
  case h_1 => exact Runs.pure ⟨fits, rfl⟩
  case h_2 k positive _ =>
    have order : 0 < k := Nat.pos_of_ne_zero positive
    apply within_make_runs fits.arena
    intro wf
    apply (Arena.derivative_makes wf order fits.inside).mono
    · exact fun h a made => ⟨_, made, fits.recorded, inherited.derivative k fits.fits⟩
    · exact fun _ _ _ => trivial
  case h_3 =>
    apply Runs.bind (Operand.written_runs w order)
    intro _ w' _ _
    exact Runs.throwAfter (firstVar_runs e)

end Traced

/-! ## Two operands -/

theorem Operand.isReal_of_realNumber? {v : Operand} {n : Number} (found : v.realNumber? = some n) :
    n.isReal = true := by
  unfold realNumber? at found
  split at found
  · obtain ⟨real, same⟩ := Option.ite_none_right_eq_some.mp found
    exact Option.some.inj same ▸ real
  · cases found

namespace Expression

/-- What an untraced operand contributes is real. -/
theorem externalValue_runs (op : String) (v : Operand) (e : Traced) :
    Runs (externalValue op v e) w fun _ x => x.isReal = true := by
  have literal : ∀ x : Float,
      Runs (Value.number <$> Workspace.literal x) w fun _ x => x.isReal = true := by
    intro x
    apply Runs.map
    apply (Workspace.literal_runs x).weaken
    intro n w' _ known
    obtain ⟨origin, rfl⟩ := known
    rfl
  unfold externalValue
  split
  · split
    next real => exact Runs.pure real
    next => exact literal _
  · exact literal _
  · exact Runs.pure rfl
  · split
    next n found => exact Runs.pure (Operand.isReal_of_realNumber? found)
    next => exact Runs.throwAfter (Traced.firstVar_runs e)

theorem extendDomain_runs (d : Domain Float) (v : Value) :
    Runs (extendDomain d v) w fun _ d' => v.Extends d d' := by
  unfold extendDomain
  split
  · apply Runs.bindDomain
    intro other created
    apply Runs.checkDomain
    exact fun d' union => ⟨other, created, union⟩
  · next plain =>
    apply Runs.pure
    unfold Value.Extends
    split
    · next name law points => exact (plain name law points rfl).elim
    · rfl

/-- Recording an operation by its name. -/
theorem binary_makes {a : Arena} (wf : a.WellFormed) (op : String) {operands : Operands}
    (trees : ∀ t ∈ operands.trees, t < a.count ∧ (a.expression t).recorded = true)
    (values : ∀ v ∈ operands.values, v < a.values.size ∧ (a.value v).isReal = true) :
    Ends (binary op operands) a (fun h b => ∃ op,
      a.Makes (a.expressionOf (.binary op operands)) h b ∧
      (a.expressionOf (.binary op operands)).recorded = true) fun _ _ => True := by
  unfold binary
  split
  case h_2 => trivial
  case h_1 op _ =>
    have stored : a.OperandsStored operands :=
      ⟨fun t ht => (trees t ht).1, fun v hv => (values v hv).1⟩
    apply (Arena.binary_stores wf op operands).mono
    · intro h b known
      refine ⟨op, known.2.makes wf stored.1 stored.2, ?_⟩
      cases operands with
      | treeTree l r =>
        have left := (trees l (by simp [Operands.trees])).2
        have right := (trees r (by simp [Operands.trees])).2
        simp [Arena.expressionOf, Tree.recorded, left, right]
      | valueTree v t | treeValue t v =>
        have tree := (trees t (by simp [Operands.trees])).2
        have value := (values v (by simp [Operands.values])).2
        simp [Arena.expressionOf, Tree.recorded, tree, value]
    · exact fun _ _ _ => trivial

/-- The value stands beside the tree with handle `h`, on one of the sides. -/
inductive IsBeside (h : Nat) : (Nat → Operands) → Prop where
  | left : IsBeside h fun value => .valueTree value h
  | right : IsBeside h fun value => .treeValue h value

namespace IsBeside

variable {h : Nat} {operands : Nat → Operands}

theorem trees (beside : IsBeside h operands) (v : Nat) : (operands v).trees = [h] := by
  cases beside <;> rfl

theorem values (beside : IsBeside h operands) (v : Nat) : (operands v).values = [v] := by
  cases beside <;> rfl

/-- A value that stands beside a tree extends its domain. -/
theorem inherits (beside : IsBeside h operands) (inherited : Inherited R) {a : Arena} {v : Nat}
    {x : Value} (key : (a.value v).key = x.key) {d d' : Domain Float} (known : R (a.expression h) d)
    (extended : x.Extends d d') (op : BinaryOp) :
    R (a.expressionOf (.binary op (operands v))) d' := by
  cases beside with
  | left =>
    rw [Arena.expressionOf, key]
    exact inherited.valueTree op known extended
  | right =>
    rw [Arena.expressionOf, key]
    exact inherited.treeValue op known extended

end IsBeside

/-- Joining a value and an expression. -/
theorem joinValue_runs (inherited : Inherited R) (op : String) (v : Operand) {e : Traced}
    (fits : e.Fits R w) {operands : Nat → Operands} (beside : IsBeside e.handle operands) :
    Runs (joinValue op v e operands) w fun w' r => r.Fits R w' ∧ r.arena = e.arena := by
  unfold joinValue
  apply Runs.bind (externalValue_runs op v e)
  intro value w₁ grown real
  have fits := fits.grow grown
  -- the value is interned beside the tree before they are joined
  have built : Runs (Workspace.within e.arena do
      binary op (operands (← Arena.intern value))) w₁ fun w' h =>
        w'.RecordsWith (fun t => ∀ d, value.Extends e.domain d → R t d) e.arena h := by
    apply Workspace.within_records fits.arena
    intro wf
    apply Ends.bind
    apply (Arena.intern_interns wf value).mono
    · intro x a interned
      have handle := interned.grown.lt_count fits.inside
      have expression := interned.grown.expression wf fits.inside
      have key : (a.value x).isReal = true := by
        rw [← Value.isReal_key, interned.key, Value.isReal_key, real]
      apply (binary_makes interned.wellFormed op ?_ ?_).weaken
      · intro h b made
        obtain ⟨op, made, recorded⟩ := made
        refine ⟨_, made.after interned.grown, recorded, fun d extended => ?_⟩
        exact beside.inherits inherited interned.key (expression ▸ fits.fits) extended op
      · intro t ht
        rw [beside.trees, List.mem_singleton] at ht
        subst ht
        exact ⟨handle, expression ▸ fits.recorded⟩
      · intro y hy
        rw [beside.values, List.mem_singleton] at hy
        subst hy
        exact ⟨interned.inside, key⟩
    · exact fun _ _ _ => trivial
  apply Runs.bind built
  intro h w₂ _ known
  apply Runs.bind (extendDomain_runs e.domain value)
  intro d w₃ grown' extended
  have known := known.grow grown'
  exact Traced.make_runs ⟨known.toRecords, known.fits d extended⟩

/-- The handle that an expression has in an arena is that of the same tree. -/
theorem bring_runs {T : Tree → Prop} {i : Nat} (inside : i < w.arenas.size) {e : Traced}
    (known : w.RecordsWith T e.arena e.handle) :
    Runs (bring i e) w fun w' h => w'.RecordsWith T i h := by
  unfold bring
  split
  next same =>
    subst same
    exact Runs.pure known
  next =>
    intro wf
    refine Runs.bindGet (Workspace.within_records inside ?_) wf
    intro wf'
    apply (Arena.adopt_exact (wf e.arena) wf' known.inside).mono ?_ fun _ _ _ => trivial
    exact fun h a made => ⟨_, made, known.recorded, known.fits⟩

/-- Joining two operands by an operation.  The result belongs to the arena of
    the left one, if that is traced. -/
theorem combine_runs (inherited : Inherited R) (op : String) {left right : Operand}
    (hl : left.Fits R w) (hr : right.Fits R w) :
    Runs (combine op left right) w fun w' r =>
      r.Fits R w' ∧ ∀ l, left = .traced l → r.arena = l.arena := by
  unfold combine
  split
  · next l r =>
    obtain ⟨hl⟩ := hl
    obtain ⟨hr⟩ := hr
    -- an expression of another arena is copied next to the left one
    apply Runs.bind (bring_runs hl.arena hr)
    intro h w₁ grown brought
    have hl := hl.grow grown
    apply Runs.bindDomain
    intro d union
    have built : Runs (do Traced.make l.arena (← Workspace.within l.arena
        (binary op (.treeTree l.handle h))) d) w₁ fun w' r => r.Fits R w' ∧ r.arena = l.arena := by
      apply Traced.within_make_runs hl.arena
      intro wf
      apply (binary_makes wf op ?_ ?_).weaken
      · intro h' b made
        obtain ⟨op, made, recorded⟩ := made
        exact ⟨_, made, recorded, inherited.treeTree op hl.fits brought.fits union⟩
      · intro t ht
        rcases (by simpa [Operands.trees] using ht : t = l.handle ∨ t = h) with rfl | rfl
        · exact ⟨hl.inside, hl.recorded⟩
        · exact ⟨brought.inside, brought.recorded⟩
      · simp [Operands.values]
    apply built.weaken
    intro r w' _ known
    refine ⟨known.1, fun l' same => ?_⟩
    cases same
    exact known.2
  · next l _ =>
    obtain ⟨hl⟩ := hl
    apply (joinValue_runs inherited op right hl .right).weaken
    intro r w' _ known
    refine ⟨known.1, fun l' same => ?_⟩
    cases same
    exact known.2
  · next r other =>
    obtain ⟨hr⟩ := hr
    apply (joinValue_runs inherited op left hr .left).weaken
    exact fun _ _ _ known => ⟨known.1, fun l same => absurd same (other l)⟩
  · exact Runs.throw

end Expression

end JetForm
