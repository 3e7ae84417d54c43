import JetForm.Proofs.Reduction.Repeatable
import JetForm.Proofs.Tree.Buildable
import JetForm.Reduction.Normalize
import Mathlib.Data.List.Forall2

/-! # Normalising trees of an arena

    The pass computes `Tree.normalForm`.  Its memory is `Sound`: what it holds
    are results of the pass, and they are solid, since the pass has recorded all of
    their operations.  A step that starts with a sound memory ends with a sound one,
    and with the handle of the expected expression.  It fails only if the tree is
    `Tree.Stuck`.  So whether normalising succeeds does not depend on what the arena
    holds besides. -/

namespace JetForm

/-- The constructors make derivatives of positive order only. -/
theorem Arena.ordered_expression {a : Arena} (wf : a.WellFormed) {h : Nat} (inside : h < a.count) :
    (a.expression h).ordered = true := by
  refine node_induction inside ?_
  intro h node hn child
  rw [expression_eq hn]
  cases node with
  | leaf | independent | constant | slot => rfl
  | unary op c => exact child c (by simp [Node.children])
  | derivative c k =>
    have positive : 0 < k := wf.admissible h _ hn
    simp [expressionOf, Tree.ordered, positive, child c (by simp [Node.children])]
  | binary op operands =>
    cases operands with
    | valueTree v t | treeValue t v => exact child t (by simp [Node.children, Operands.trees])
    | treeTree l r =>
      simp [expressionOf, Tree.ordered, child l (by simp [Node.children, Operands.trees]),
        child r (by simp [Node.children, Operands.trees])]

namespace Normalize

variable {a : Arena}

/-- The memory of a pass holds results of the pass, all of them solid. -/
structure Memo.Sound (memo : Memo) (a : Arena) : Prop where
  derivatives : ∀ h k r, memo.derivatives[(h, k)]? = some r → h < a.count ∧ r < a.count ∧
    (a.expression h).push k = some (a.expression r) ∧ (a.expression r).solid = true
  normal : Arena.Remembers Tree.normalForm memo.normal a
  solid : ∀ (h r : Nat), memo.normal[h]? = some r → (a.expression r).solid = true

theorem Memo.Sound.grow {a' : Arena} {memo : Memo} (sound : memo.Sound a) (wf : a.WellFormed)
    (grown : a.Extends a') : memo.Sound a' := by
  refine ⟨?_, sound.normal.grow wf grown, ?_⟩
  · intro h k r known
    obtain ⟨hh, hr, result, solid⟩ := sound.derivatives h k r known
    refine ⟨grown.lt_count hh, grown.lt_count hr, ?_⟩
    rw [grown.expression wf hh, grown.expression wf hr]
    exact ⟨result, solid⟩
  · intro h r known
    rw [grown.expression wf (sound.normal h r known).2.1]
    exact sound.solid h r known

/-- The outcome of a step of the pass that started with memory `memo`: the
    handle of a solid expression, and a memory that is sound. -/
structure Result (a : Arena) (memo : Memo) (t : Option Tree) (r : Nat × Memo) (a' : Arena) :
    Prop where
  made : ∃ t', t = some t' ∧ t'.solid = true ∧ a.Makes t' r.1 a'
  sound : r.2.Sound a'
  normal : r.2.normal = memo.normal

/-- What is built at once leaves the memory sound. -/
theorem Result.of_makes {t : Tree} {q : Nat} {memo : Memo} {b : Arena} (sound : memo.Sound a)
    (wf : a.WellFormed) (made : a.Makes t q b) (solid : t.solid = true) :
    Result a memo (some t) (q, memo) b :=
  ⟨⟨t, rfl, solid, made⟩, sound.grow wf made.grown, rfl⟩

/-- A step after another one. -/
theorem Result.after {t t' : Option Tree} {c q : Nat} {memo memo₁ memo₂ : Memo} {b a' : Arena}
    (first : Result a memo t (c, memo₁) b) (second : Result b memo₁ t' (q, memo₂) a') :
    Result a memo t' (q, memo₂) a' := by
  obtain ⟨_, -, -, made⟩ := first.made
  obtain ⟨tree, eq, solid, later⟩ := second.made
  exact ⟨⟨tree, eq, solid, later.after made.grown⟩, second.sound, second.normal.trans first.normal⟩

/-- Remembering a derivative. -/
theorem ends_remember (wf : a.WellFormed) {h k : Nat} (inside : h < a.count) {r : Nat}
    {memo memo' : Memo} {b : Arena} {failed : Error → Arena → Prop}
    (result : Result a memo ((a.expression h).push k) (r, memo') b) :
    Ends ((do
      modify fun memo => { memo with derivatives := memo.derivatives.insert (h, k) r }
      return r : Normalizing Nat) memo') b (Result a memo ((a.expression h).push k)) failed := by
  refine Ends.bindState (Ends.modifyState (Ends.pureState ?_))
  obtain ⟨t, pushed, solid, made⟩ := result.made
  refine ⟨⟨t, pushed, solid, made⟩, ⟨?_, result.sound.normal, result.sound.solid⟩, result.normal⟩
  intro g j q known
  rw [Std.HashMap.getElem?_insert] at known
  split at known
  next same =>
    cases known
    obtain ⟨rfl, rfl⟩ := Prod.mk.inj (beq_iff_eq.mp same)
    refine ⟨made.grown.lt_count inside, made.inside, ?_⟩
    rw [made.grown.expression wf inside, pushed, made.expression]
    exact ⟨rfl, solid⟩
  next => exact result.sound.derivatives g j q known

/-- Going on with a number, and stopping at an external function. -/
theorem ends_needNumber {h v : Nat} {op : BinaryOp} {x : Normalizing Nat} {memo : Memo}
    {done : Nat × Memo → Arena → Prop} {failed : Error → Arena → Prop}
    (number : (a.value v).isNumber = true → Ends (x memo) a done failed)
    (external : (a.value v).isNumber = false →
      ∀ name var, failed (.symbolicDerivative name var) a) :
    Ends ((needNumber h v op >>= fun _ => x) memo) a done failed := by
  refine Ends.bindState (Ends.bindState (Ends.liftState (Ends.get ?_)))
  cases isNumber : (a.value v).isNumber with
  | true => exact number isNumber
  | false => exact external isNumber _ _

/-! ## One derivative -/

/-- A step that derives a node: it gives the derivative, or the node is stuck. -/
abbrev Derives (a : Arena) (h k : Nat) (memo : Memo) (x : EStateM Error Arena (Nat × Memo)) :
    Prop :=
  Ends x a (Result a memo ((a.expression h).push k))
    fun e _ => Tree.Stuck (a.expression h) ((a.expression h).push k) e

/-- A visit of the pass to a solid node.  It gets to the children in this arena or in one
    that it grows into. -/
structure Visit (a : Arena) (h k : Nat) (node : Node) (memo : Memo) : Prop where
  wf : a.WellFormed
  sound : memo.Sound a
  stored : a.node? h = some node
  positive : 0 < k
  solid : (a.expression h).solid = true
  children : ∀ c ∈ node.children, ∀ b memo, b.WellFormed → a.Extends b → memo.Sound b →
    Derives b c k memo (push c k memo)

namespace Visit

section

variable {h k : Nat} {node : Node} {memo : Memo} (visit : Visit a h k node memo)

include visit

theorem inside : h < a.count :=
  Arena.lt_count visit.stored

theorem expression : a.expression h = a.expressionOf node :=
  Arena.expression_eq visit.stored

theorem part {c : Nat} (hc : c ∈ node.children) :
    a.expression c ∈ (a.expression h).children := by
  rw [visit.expression, Arena.children_expressionOf]
  exact List.mem_map_of_mem hc

theorem child_inside {c : Nat} (hc : c ∈ node.children) : c < a.count :=
  Nat.lt_trans (a.child_lt h node visit.stored c hc) visit.inside

theorem child_solid {c : Nat} (hc : c ∈ node.children) : (a.expression c).solid = true :=
  Tree.solid_of_child visit.solid _ (visit.part hc)

theorem child {c : Nat} (hc : c ∈ node.children) : Derives a c k memo (push c k memo) :=
  visit.children c hc a memo visit.wf (Arena.Extends.refl a) visit.sound

/-- What is stuck in a child is stuck in the tree. -/
theorem stuck {c : Nat} (hc : c ∈ node.children) {e : Error} {t t' : Option Tree}
    (stuck : Tree.Stuck (a.expression c) t e) (none : t = none → t' = none)
    (broken : Tree.Unbuildable t → Tree.Unbuildable t') : Tree.Stuck (a.expression h) t' e :=
  stuck.above (fun good => Tree.invertible_of_child good _ (visit.part hc)) none broken

/-- An operation that lets no derivative through. -/
theorem refused (shape : (a.expressionOf node).push k = none) (name : String)
    (var : Option Nat) :
    Tree.Stuck (a.expression h) ((a.expression h).push k) (.symbolicDerivative name var) :=
  Or.inl ⟨visit.expression ▸ shape, name, var, rfl⟩

/-- A derivative that is built at once. -/
theorem built {build : Building Nat} {t : Tree}
    (built : Ends build a (fun q b => a.Makes t q b) fun _ _ => False)
    (shape : (a.expressionOf node).push k = some t) (solid : t.solid = true) :
    Derives a h k memo ((do
      let q ← liftM build
      modify fun memo => { memo with derivatives := memo.derivatives.insert (h, k) q }
      return q : Normalizing Nat) memo) := by
  refine Ends.bindState (Ends.liftState (built.mono ?_ fun _ _ => False.elim))
  intro q b made
  refine ends_remember visit.wf visit.inside ?_
  rw [visit.expression, shape]
  exact Result.of_makes visit.sound visit.wf made solid

/-- A derivative that is passed on from a child. -/
theorem passed {c : Nat} (hc : c ∈ node.children)
    (shape : (a.expressionOf node).push k = (a.expression c).push k) :
    Derives a h k memo ((do
      let q ← push c k
      modify fun memo => { memo with derivatives := memo.derivatives.insert (h, k) q }
      return q : Normalizing Nat) memo) := by
  rw [← visit.expression] at shape
  refine Ends.bindState ((visit.child hc).mono ?_ ?_)
  · rintro ⟨q, memo₁⟩ b result
    exact ends_remember visit.wf visit.inside (shape ▸ result)
  · intro e _ stuck
    rw [shape]
    exact visit.stuck hc stuck id id

/-- The derivative of a node that is one operation on the derivative of its
    child. -/
theorem above {c : Nat} (hc : c ∈ node.children) {build : Nat → Building Nat} (f : Tree → Tree)
    (parent : ∀ r b, b.WellFormed → a.Extends b → r < b.count → (b.expression r).solid = true →
      Ends (build r) b
        (fun q a' => b.Makes (f (b.expression r)) q a' ∧ (f (b.expression r)).solid = true)
        fun e _ => (f (b.expression r)).solid = false ∧ (a.expression h).invertible = false ∧
          ∃ fault, e = .fault fault)
    (part : ∀ t, (f t).solid = true → t.solid = true)
    (shape : (a.expressionOf node).push k = ((a.expression c).push k).map f) :
    Derives a h k memo ((do
      let r ← push c k
      let q ← liftM (build r)
      modify fun memo => { memo with derivatives := memo.derivatives.insert (h, k) q }
      return q : Normalizing Nat) memo) := by
  rw [← visit.expression] at shape
  refine Ends.bindState ((visit.child hc).mono ?_ ?_)
  · rintro ⟨r, memo₁⟩ b child
    obtain ⟨t, pushed, solid, made⟩ := child.made
    -- the child is pushed first; the parent is then built on the pushed child
    have derived : (a.expression h).push k = some (f (b.expression r)) := by
      rw [shape, pushed, Option.map_some, made.expression]
    refine Ends.bindState (Ends.liftState ((parent r b made.wellFormed made.grown made.inside
      (made.expression ▸ solid)).mono ?_ ?_))
    · rintro q a' ⟨above, solid'⟩
      refine ends_remember visit.wf visit.inside ?_
      rw [derived]
      exact child.after (Result.of_makes child.sound made.wellFormed above solid')
    · rintro _ _ ⟨broken, bad, fault⟩
      refine Or.inr ⟨?_, bad, fault⟩
      intro t' eq
      exact Option.some.inj (derived.symm.trans eq) ▸ broken
  · intro e _ stuck
    rw [shape]
    apply visit.stuck hc stuck
    · rintro none
      rw [none, Option.map_none]
    · exact fun broken => broken.map part

/-- The same for a sign, which can always be built. -/
theorem sign {c : Nat} (hc : c ∈ node.children) {op : UnaryOp}
    (shape : (a.expressionOf node).push k = ((a.expression c).push k).map (.unary op)) :
    Derives a h k memo ((do
      let r ← push c k
      let q ← liftM (Arena.unary op r)
      modify fun memo => { memo with derivatives := memo.derivatives.insert (h, k) q }
      return q : Normalizing Nat) memo) := by
  refine visit.above hc (.unary op) ?_ (fun _ => id) shape
  intro r b wf' _ hr solid
  exact (Arena.unary_makes wf' op hr).mono (fun _ _ made => ⟨made, solid⟩) fun _ _ => False.elim

end

variable {h k : Nat} {memo : Memo}

/-- The sum or difference of the derivatives of two children. -/
theorem sum {op op' : BinaryOp} {l r : Nat}
    (visit : Visit a h k (.binary op' (.treeTree l r)) memo)
    (shape : (a.expressionOf (.binary op' (.treeTree l r))).push k =
      ((a.expression l).push k).bind fun l => ((a.expression r).push k).map (.treeTree op l)) :
    Derives a h k memo ((do
      let l ← push l k
      let r ← push r k
      let q ← liftM (Arena.binary op (.treeTree l r))
      modify fun memo => { memo with derivatives := memo.derivatives.insert (h, k) q }
      return q : Normalizing Nat) memo) := by
  have hl : l ∈ (Node.binary op' (.treeTree l r)).children := by
    simp [Node.children, Operands.trees]
  have hr : r ∈ (Node.binary op' (.treeTree l r)).children := by
    simp [Node.children, Operands.trees]
  rw [← visit.expression] at shape
  -- left, then right, then the node itself; a side that is stuck makes the whole stuck
  refine Ends.bindState ((visit.child hl).mono ?_ ?_)
  · rintro ⟨p, memo₁⟩ b left
    obtain ⟨tl, pushedl, solidl, madel⟩ := left.made
    have same := madel.grown.expression visit.wf (visit.child_inside hr)
    have second := visit.children r hr b memo₁ madel.wellFormed madel.grown left.sound
    refine Ends.bindState (second.mono ?_ ?_)
    · rintro ⟨q, memo₂⟩ b₂ right
      obtain ⟨tr, pushedr, solidr, mader⟩ := right.made
      have hp := mader.grown.lt_count madel.inside
      refine Ends.bindState (Ends.liftState ((Arena.treeTree_makes mader.wellFormed op
        hp mader.inside).mono ?_ fun _ _ => False.elim))
      intro s a' above
      rw [mader.grown.expression madel.wellFormed madel.inside, madel.expression,
        mader.expression] at above
      have solid' : (Tree.treeTree op tl tr).solid = true :=
        Bool.and_eq_true_iff.mpr ⟨solidl, solidr⟩
      have here := Result.of_makes right.sound mader.wellFormed above solid'
      refine ends_remember visit.wf visit.inside ?_
      rw [shape, pushedl, ← same, pushedr]
      exact left.after (right.after here)
    · intro e _ stuck
      rw [same] at stuck
      rw [shape, pushedl, Option.bind_some]
      apply visit.stuck hr stuck
      · intro none
        rw [none, Option.map_none]
      · exact fun broken => broken.map fun t solid => (Bool.and_eq_true_iff.mp solid).2
  · intro e _ stuck
    rw [shape]
    apply visit.stuck hl stuck
    · intro none
      rw [none, Option.bind_none]
    · intro broken t' eq
      obtain ⟨tl, pushedl, eq⟩ := Option.bind_eq_some_iff.mp eq
      obtain ⟨tr, -, rfl⟩ := Option.map_eq_some_iff.mp eq
      simp [Tree.solid, broken tl pushedl]

/-- A value times the derivative. -/
theorem timesValue {op : BinaryOp} {v t : Nat}
    (visit : Visit a h k (.binary op (.valueTree v t)) memo)
    (shape : (a.expressionOf (.binary op (.valueTree v t))).push k =
      ((a.expression t).push k).map (.valueTree .times (a.value v).key)) :
    Derives a h k memo ((do
      let t ← push t k
      let q ← liftM (Arena.binary .times (.valueTree v t))
      modify fun memo => { memo with derivatives := memo.derivatives.insert (h, k) q }
      return q : Normalizing Nat) memo) := by
  have hv := visit.wf.values h _ visit.stored v (by simp [Node.values, Operands.values])
  refine visit.above (by simp [Node.children, Operands.trees])
    (.valueTree .times (a.value v).key) ?_ (fun _ => id) shape
  intro r b wf' grown hr solid
  obtain ⟨hv', same⟩ := grown.value v hv
  rw [← same]
  exact (Arena.valueTree_makes wf' .times hv' hr).mono
    (fun _ _ made => ⟨made, solid⟩) fun _ _ => False.elim

/-- The derivative times or through a value.  Only here an operation can be refused. -/
theorem byValue {op : BinaryOp} {v t : Nat}
    (visit : Visit a h k (.binary op (.treeValue t v)) memo)
    (shape : (a.expressionOf (.binary op (.treeValue t v))).push k =
      ((a.expression t).push k).map (.treeValue op · (a.value v).key)) :
    Derives a h k memo ((do
      let t ← push t k
      let q ← liftM (Arena.binary op (.treeValue t v))
      modify fun memo => { memo with derivatives := memo.derivatives.insert (h, k) q }
      return q : Normalizing Nat) memo) := by
  have hv := visit.wf.values h _ visit.stored v (by simp [Node.values, Operands.values])
  refine visit.above (by simp [Node.children, Operands.trees]) (.treeValue op · (a.value v).key)
    ?_ (fun t solid => (Bool.and_eq_true_iff.mp solid).2) shape
  intro r b wf' grown hr solid
  obtain ⟨hv', same⟩ := grown.value v hv
  rw [← same]
  apply (Arena.treeValue_exact wf' op hr hv').mono
  · rintro q a' ⟨made, divides⟩
    exact ⟨made, Bool.and_eq_true_iff.mpr ⟨divides, solid⟩⟩
  · rintro _ _ ⟨refused, fault⟩
    refine ⟨by rw [Tree.solid, refused, Bool.false_and], ?_, fault⟩
    -- the number by which the derivative was to be divided stands in the tree
    rw [same] at refused
    rw [visit.expression, Arena.expressionOf, Tree.invertible,
      Tree.inverse_of_not_divisible refused, Bool.false_and]

end Visit

/-- Deriving a solid node gives what `Tree.push` gives for its expression. -/
theorem push_ends (wf : a.WellFormed) {h k : Nat} (inside : h < a.count) (positive : 0 < k)
    (solid : (a.expression h).solid = true) {memo : Memo} (sound : memo.Sound a) :
    Derives a h k memo (push h k memo) := by
  induction h using Nat.strongRecOn generalizing a memo with
  | _ h ih =>
  rw [push]
  refine Ends.bindState (Ends.getState ?_)
  cases known : memo.derivatives[(h, k)]? with
  | some r =>
    obtain ⟨-, hr, result, solid⟩ := sound.derivatives h k r known
    exact Ends.pureState ⟨⟨_, result, solid, Arena.makes_stored wf hr⟩, sound, rfl⟩
  | none =>
    refine Ends.bindState (Ends.liftState (Ends.get ?_))
    obtain ⟨node, hn⟩ := Arena.node?_isSome.mpr inside
    -- children have smaller handles
    have visit : Visit a h k node memo := by
      refine ⟨wf, sound, hn, positive, solid, ?_⟩
      intro c hc b memo' wf' grown sound'
      have smaller := a.child_lt h node hn c hc
      have inside' := Nat.lt_trans smaller inside
      refine ih c smaller wf' (grown.lt_count inside') ?_ sound'
      rw [grown.expression wf inside']
      refine Tree.solid_of_child solid _ ?_
      rw [Arena.expression_eq hn, Arena.children_expressionOf]
      exact List.mem_map_of_mem hc
    dsimp only
    generalize a.node? h = stored at hn ⊢
    subst hn
    cases node with
    | leaf var =>
      refine visit.built (Arena.derivative_makes wf positive inside) ?_ solid
      rw [visit.expression]
      rfl
    | derivative c order =>
      have only : c ∈ (Node.derivative c order).children := by simp [Node.children]
      exact visit.built (Arena.derivative_makes wf (Nat.add_pos_right order positive)
        (visit.child_inside only)) rfl (visit.child_solid only)
    | independent =>
      refine visit.built (Arena.constantOf_makes wf _) ?_ rfl
      by_cases one : k = 1
      · simp only [Arena.expressionOf, Tree.push, one, if_true, Value.key_one]
      · simp only [Arena.expressionOf, Tree.push, one, if_false, Value.key_zero]
    | constant v =>
      refine visit.built (Arena.constantOf_makes wf _) ?_ rfl
      rw [Value.key_zero]
      rfl
    | slot index var order => exact visit.refused rfl _ _
    | unary op c =>
      dsimp only
      by_cases sign : op.isSign
      · rw [if_pos sign]
        exact visit.sign (by simp [Node.children]) (by simp [Arena.expressionOf, Tree.push, sign])
      · rw [if_neg sign]
        exact visit.refused (by simp [Arena.expressionOf, Tree.push, sign]) _ _
    | binary op operands =>
      cases operands with
      | treeTree l r =>
        cases op with
        | plus | minus => exact visit.sum rfl
        | times | rdivide | power => exact visit.refused rfl _ _
      | valueTree v t =>
        have only : t ∈ (Node.binary op (.valueTree v t)).children := by
          simp [Node.children, Operands.trees]
        cases op with
        | plus =>
          refine ends_needNumber (fun number => ?_) fun external => visit.refused ?_
          · exact visit.passed only (by simp [Arena.expressionOf, Tree.push, number])
          · simp [Arena.expressionOf, Tree.push, external]
        | minus =>
          refine ends_needNumber (fun number => ?_) fun external => visit.refused ?_
          · exact visit.sign only (by simp [Arena.expressionOf, Tree.push, number])
          · simp [Arena.expressionOf, Tree.push, external]
        | times =>
          refine ends_needNumber (fun number => ?_) fun external => visit.refused ?_
          · exact visit.timesValue (by simp [Arena.expressionOf, Tree.push, number])
          · simp [Arena.expressionOf, Tree.push, external]
        | rdivide | power =>
          exact visit.refused (by simp [Arena.expressionOf, Tree.push]) _ _
      | treeValue t v =>
        have only : t ∈ (Node.binary op (.treeValue t v)).children := by
          simp [Node.children, Operands.trees]
        cases op with
        | plus | minus =>
          refine ends_needNumber (fun number => ?_) fun external => visit.refused ?_
          · exact visit.passed only (by simp [Arena.expressionOf, Tree.push, number])
          · simp [Arena.expressionOf, Tree.push, external]
        | times | rdivide =>
          refine ends_needNumber (fun number => ?_) fun external => visit.refused ?_
          · exact visit.byValue (by simp [Arena.expressionOf, Tree.push, number])
          · simp [Arena.expressionOf, Tree.push, external]
        | power => exact visit.refused (by simp [Arena.expressionOf, Tree.push]) _ _

/-! ## The pass over a tree -/

/-- What holds during the pass. -/
structure Swept (a : Arena) (before : List Nat) (memo : Memo) (b : Arena) : Prop where
  swept : Arena.Swept Tree.normalForm a before memo.normal b
  sound : memo.Sound b

/-- Remembering a normal form. -/
theorem Swept.record {before : List Nat} {memo memo' : Memo} {b b' : Arena} {h r : Nat}
    (swept : Swept a before memo b) (inside : h < b.count)
    (result : Result b memo (b.expression h).normalForm (r, memo') b') :
    Swept a (before ++ [h]) { memo' with normal := memo'.normal.insert h r } b' := by
  obtain ⟨t, normal, solid, made⟩ := result.made
  have swept' := swept.swept.record inside made normal
  rw [← result.normal] at swept'
  refine ⟨swept', result.sound.derivatives, swept'.remembers, ?_⟩
  intro g q known
  rw [Std.HashMap.getElem?_insert] at known
  split at known
  next =>
    cases known
    exact made.expression ▸ solid
  next => exact result.sound.solid g q known

/-- Meeting a node finds its normal form, or the node is stuck. -/
theorem meet_ends {roots before : List Nat} {h : Nat} {node : Node} {memo : Memo} {b : Arena}
    (turn : a.Turn roots before h node) (swept : Swept a before memo b) :
    Ends (meet h node memo) b (fun r => Swept a (before ++ [h]) r.2)
      fun e _ => Tree.Stuck (b.expression h) (b.expression h).normalForm e := by
  have wf := swept.swept.wellFormed
  have hn := swept.swept.grown.node h node turn.stored
  have inside := Arena.lt_count hn
  have expression := Arena.expression_eq hn
  refine Ends.bindState (Ends.getState ?_)
  by_cases known : memo.normal.contains h
  · rw [if_pos known]
    exact Ends.pureState
      ⟨swept.swept.skip (Std.HashMap.mem_iff_contains.mpr known), swept.sound⟩
  rw [if_neg known]
  -- the children have been met before
  have child : ∀ c ∈ node.children, memo.normal[c]?.getD c < b.count ∧
      (b.expression c).normalForm = some (b.expression (memo.normal[c]?.getD c)) ∧
      (b.expression (memo.normal[c]?.getD c)).solid = true := by
    intro c hc
    obtain ⟨r, eq, hr, normal⟩ := swept.swept.known (turn.children c hc)
    rw [eq]
    exact ⟨hr, normal, swept.sound.solid c r eq⟩
  have copy : (∀ var, node ≠ .leaf var) → (∀ c k, node ≠ .derivative c k) →
      Ends (Arena.copyNode (fun c => memo.normal[c]?.getD c) h node) b
        (fun r => Result b memo (b.expression h).normalForm (r, memo))
        fun e _ => Tree.Stuck (b.expression h) (b.expression h).normalForm e := by
    intro known operation
    have normal : (b.expression h).normalForm = _ :=
      expression ▸ Arena.rebuild_expressionOf known operation fun c hc => (child c hc).2.1
    apply (Arena.copyNode_solid wf hn fun c hc => ⟨(child c hc).1, (child c hc).2.2⟩).mono
    · rintro r b' ⟨made, solid⟩
      rw [normal]
      exact Result.of_makes swept.sound wf made solid
    · rintro _ _ ⟨broken, fault⟩
      refine Or.inr ⟨?_, ?_, fault⟩
      · intro t eq
        exact Option.some.inj (normal.symm.trans eq) ▸ broken
      · rw [← Bool.not_eq_true] at broken ⊢
        intro good
        exact broken (Tree.solid_of_invertible (Tree.invertible_normalForm normal good))
  cases node with
  | derivative c k =>
    obtain ⟨hr, normal, solid⟩ := child c (by simp [Node.children])
    refine Ends.bindState (Ends.bindState (Ends.getState (Ends.pureState ?_)))
    have shape : (b.expression h).normalForm =
        (b.expression (memo.normal[c]?.getD c)).push k := by
      rw [expression]
      show (b.expression c).normalForm.bind _ = _
      rw [normal, Option.bind_some]
    refine Ends.bindState ((push_ends wf hr (wf.admissible h _ hn) solid swept.sound).mono ?_ ?_)
    · rintro ⟨q, memo'⟩ b' result
      exact Ends.modifyState (swept.record inside (shape ▸ result))
    · intro e _ stuck
      rw [shape]
      refine stuck.above (fun good => Tree.invertible_normalForm normal ?_) id id
      rw [expression] at good
      exact good
  | leaf var =>
    refine Ends.bindState (Ends.liftState (Ends.pure (Ends.modifyState ?_)))
    have made : b.Makes (b.expression h) h b := Arena.makes_stored wf inside
    refine swept.record inside ?_
    rw [expression] at made ⊢
    exact Result.of_makes swept.sound wf made rfl
  | independent | constant | slot | unary | binary =>
    refine Ends.bindState (Ends.liftState ((copy (by simp) (by simp)).weaken ?_))
    intro r b' result
    exact Ends.modifyState (swept.record inside result)

/-- Handle `r` of arena `b` is that of the normal form of tree `h` of arena `a`, and
    this one is solid. -/
structure Normalizes (a : Arena) (h : Nat) (b : Arena) (r : Nat) : Prop where
  inside : r < b.count
  normalForm : (a.expression h).normalForm = some (b.expression r)
  solid : (b.expression r).solid = true

theorem Normalizes.grow {b c : Arena} {h r : Nat} (n : Normalizes a h b r) (wf : b.WellFormed)
    (grown : b.Extends c) : Normalizes a h c r := by
  have same := grown.expression wf n.inside
  exact ⟨grown.lt_count n.inside, same ▸ n.normalForm, same ▸ n.solid⟩

/-- A normal form can be recorded again. -/
theorem Normalizes.repeatable {b : Arena} {h r : Nat} (n : Normalizes a h b r)
    (wf : b.WellFormed) : b.Repeatable r :=
  (Arena.repeatable_iff wf n.inside).mpr n.solid

/-- What meeting nodes preserves, the pass over the tree below one root preserves, and the memory
    holds the result. -/
theorem root_pass (wf : a.WellFormed) {h : Nat} (inside : h < a.count) {memo : Memo}
    (sound : memo.Sound a) (kept : Memo → Arena → Prop) {failed : Error → Arena → Prop}
    (start : kept memo a)
    (step : ∀ before g node memo b, a.Turn [h] before g node → Swept a before memo b →
      kept memo b → Ends (meet g node memo) b (fun r c => kept r.2 c) failed) :
    Ends (root h memo) a
      (fun r b => (Swept a (a.postorder [h]) r.2 b ∧ r.2.normal[h]? = some r.1) ∧ kept r.2 b)
      failed := by
  have roots : ∀ r ∈ [h], r < a.count := by simpa using inside
  have handles : a.requireNodes [h] = .ok () := Arena.requireNodes_eq_ok.mpr roots
  have first : Swept a [] memo a ∧ kept memo a :=
    ⟨⟨⟨wf, Arena.Extends.refl a, sound.normal, by simp⟩, sound⟩, start⟩
  -- the handle is checked first; the sweep then meets everything below it, children first
  refine Ends.bindState (Ends.liftState (Ends.get ?_))
  simp only [handles]
  refine Ends.bindState (Ends.pureState ?_)
  apply Ends.bindState
  apply (Arena.ends_sweepState roots
    (fun before r b => Swept a before r.2 b ∧ kept r.2 b) first ?_).weaken
  · rintro ⟨_, memo'⟩ b ⟨swept, keeps⟩
    have listed : h ∈ a.postorder [h] :=
      (Arena.mem_postorder roots).mpr ⟨h, by simp, Arena.Reaches.refl a h⟩
    obtain ⟨r, known, -⟩ := swept.swept.known listed
    refine Ends.bindState (Ends.getState (Ends.pureState ⟨⟨swept, ?_⟩, keeps⟩))
    show memo'.normal[h]? = some (memo'.normal[h]?.getD h)
    rw [known]
    rfl
  · rintro before g node _ memo b turn ⟨swept, keeps⟩
    apply ((meet_ends turn swept).and (step before g node memo b turn swept keeps)).mono
    · exact fun _ _ => id
    · exact fun _ _ => And.right

/-- The pass over the tree below one root. -/
theorem root_ends (wf : a.WellFormed) {h : Nat} (inside : h < a.count) {memo : Memo}
    (sound : memo.Sound a) :
    Ends (root h memo) a
      (fun r a' => (a'.WellFormed ∧ a.Extends a' ∧ Normalizes a h a' r.1) ∧ r.2.Sound a')
      fun e _ => Tree.Stuck (a.expression h) (a.expression h).normalForm e := by
  apply (root_pass wf inside sound (fun _ _ => True) trivial ?_).weaken
  · rintro ⟨r, memo'⟩ b ⟨⟨swept, known⟩, -⟩
    obtain ⟨-, hr, normal⟩ := swept.swept.remembers h r known
    have same := swept.swept.grown.expression wf inside
    exact ⟨⟨swept.swept.wellFormed, swept.swept.grown, hr, same ▸ normal,
      swept.sound.solid h r known⟩, swept.sound⟩
  · intro before g node memo b turn swept _
    apply (meet_ends turn swept).mono
    · exact fun _ _ _ => trivial
    · intro e _ stuck
      have reach := turn.reaches
      rw [swept.swept.grown.expression wf (reach.lt_count inside)] at stuck
      exact Arena.expression_of_reaches (P := fun t => t.Stuck t.normalForm e)
        Tree.Stuck.of_child reach stuck

theorem sound_start : Memo.Sound {} a :=
  ⟨by simp, Arena.remembers_empty, by simp⟩

end Normalize

/-- What the passes below single roots preserve, normalising preserves. -/
theorem Arena.normalize_pass {a : Arena} (wf : a.WellFormed) {roots : List Nat}
    (inside : ∀ r ∈ roots, r < a.count) (kept : Normalize.Memo → Arena → Prop)
    {failed : Error → Arena → Prop} (start : kept {} a)
    (step : ∀ h ∈ roots, ∀ memo b, b.WellFormed → a.Extends b → memo.Sound b → kept memo b →
      Ends (Normalize.root h memo) b (fun r c => kept r.2 c) failed) :
    Ends (Arena.normalize roots) a
      (fun hs b => (b.WellFormed ∧ a.Extends b ∧
        List.Forall₂ (fun r h => Normalize.Normalizes a r b h) roots hs) ∧ ∃ memo, kept memo b)
      failed := by
  have pass : Ends ((roots.mapM Normalize.root : Normalize.Normalizing (List Nat)) {}) a
      (fun r b => ((b.WellFormed ∧ a.Extends b ∧
        List.Forall₂ (fun r h => Normalize.Normalizes a r b h) roots r.1) ∧ r.2.Sound b) ∧
        kept r.2 b) failed := by
    refine Ends.mapMState (fun before (r : List Nat × Normalize.Memo) b =>
      ((b.WellFormed ∧ a.Extends b ∧
        List.Forall₂ (fun r h => Normalize.Normalizes a r b h) before r.1) ∧ r.2.Sound b) ∧
        kept r.2 b)
      ⟨⟨⟨wf, Arena.Extends.refl a, List.Forall₂.nil⟩, Normalize.sound_start⟩, start⟩ ?_
    rintro before h after ys memo b eq ⟨⟨⟨wf', grown, done⟩, sound⟩, keeps⟩
    have mem : h ∈ roots := by simp [eq]
    have same := grown.expression wf (inside h mem)
    apply ((Normalize.root_ends wf' (grown.lt_count (inside h mem)) sound).and
      (step h mem memo b wf' grown sound keeps)).mono
    · rintro r c ⟨⟨⟨wf'', grown', normal⟩, sound'⟩, keeps'⟩
      refine ⟨⟨⟨wf'', grown.trans grown', ?_⟩, sound'⟩, keeps'⟩
      refine List.rel_append (done.imp fun _ _ n => n.grow wf' grown') ?_
      exact List.Forall₂.cons ⟨normal.inside, same ▸ normal.normalForm, normal.solid⟩ List.Forall₂.nil
    · exact fun _ _ => And.right
  exact Ends.map (pass.weaken fun r b h => ⟨h.1.1, r.2, h.2⟩)

/-- **Normalising is exact.**  It gives the handles of the normal forms, which are
    solid.  It fails only for a tree that is stuck, and with its error. -/
theorem Arena.normalize_ends {a : Arena} (wf : a.WellFormed) {roots : List Nat}
    (inside : ∀ r ∈ roots, r < a.count) :
    Ends (Arena.normalize roots) a
      (fun hs a' => a'.WellFormed ∧ a.Extends a' ∧
        List.Forall₂ (fun r h => Normalize.Normalizes a r a' h) roots hs)
      fun e _ => ∃ r ∈ roots, (a.expression r).Stuck (a.expression r).normalForm e := by
  apply (normalize_pass wf inside (fun _ _ => True) trivial ?_).weaken
  · exact fun _ _ => And.left
  · intro h mem memo b wf' grown sound _
    apply (Normalize.root_ends wf' (grown.lt_count (inside h mem)) sound).mono
    · exact fun _ _ _ => trivial
    · intro e _ stuck
      exact ⟨h, mem, grown.expression wf (inside h mem) ▸ stuck⟩

end JetForm
