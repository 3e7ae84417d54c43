import JetForm.Proofs.Tree.NormalForm

/-! # Trees that let a derivative through

    `Tree.Differentiable` is the grammar of the trees that can be differentiated without symbolic
    rules: unknowns, the independent variable and constants, and what is made of them by signs,
    sums, operations with numbers and derivatives.  The pass never tests a tree for it.  It tests
    the normal form of the operand, in which terms have been dropped and derivatives have become
    ones of unknowns, and it looks at each operation only when it gets there.  The two agree:
    `normalForm_isSome_iff`. -/

namespace JetForm

namespace Tree

variable {t t' : Tree} {k : Nat}

/-- The trees that can be differentiated any number of times. -/
inductive Differentiable : Tree → Prop
  | leaf (var : Nat) : Differentiable (.leaf var)
  | independent : Differentiable .independent
  | constant (v : Value) : Differentiable (.constant v)
  | sign {op : UnaryOp} {c : Tree} : op.isSign = true → Differentiable c →
    Differentiable (.unary op c)
  | sum {op : BinaryOp} {l r : Tree} : op = .plus ∨ op = .minus → Differentiable l →
    Differentiable r → Differentiable (.treeTree op l r)
  | afterNumber {op : BinaryOp} {n : Number} {c : Tree} : op = .plus ∨ op = .minus →
    Differentiable c → Differentiable (.valueTree op (.number n) c)
  | beforeNumber {op : BinaryOp} {c : Tree} {n : Number} : op = .plus ∨ op = .minus →
    Differentiable c → Differentiable (.treeValue op c (.number n))
  | numberTimes {n : Number} {c : Tree} : Differentiable c →
    Differentiable (.valueTree .times (.number n) c)
  | timesNumber {c : Tree} {n : Number} : Differentiable c →
    Differentiable (.treeValue .times c (.number n))
  | overNumber {c : Tree} {n : Number} : Differentiable c →
    Differentiable (.treeValue .rdivide c (.number n))
  | derivative {c : Tree} {k : Nat} : Differentiable c → Differentiable (.derivative c k)

/-- `Pushes` says no more than `push`. -/
theorem push_of_pushes (pushes : Pushes k t t') : t.push k = some t' := by
  induction pushes with
  | leaf | independent | constant | derivative => rfl
  | sign sign _ ih => simp [push, sign, ih]
  | sum sum _ _ ihl ihr => rcases sum with rfl | rfl <;> simp [push, ihl, ihr]
  | afterNumber _ ih | fromNumber _ ih | timesNumber _ ih => simp [push, Value.isNumber, ih]
  | beforeNumber sum _ ih => rcases sum with rfl | rfl <;> simp [push, Value.isNumber, ih]
  | scale product _ ih => rcases product with rfl | rfl <;> simp [push, Value.isNumber, ih]

/-- What has been pushed can be pushed again. -/
theorem Pushes.again (pushes : Pushes k t t') (j : Nat) : ∃ t'', Pushes j t' t'' := by
  induction pushes with
  | leaf var => exact ⟨_, .derivative (.leaf var) k⟩
  | independent => exact ⟨_, .constant _⟩
  | constant => exact ⟨_, .constant _⟩
  | derivative c order => exact ⟨_, .derivative c (order + k)⟩
  | afterNumber _ ih | beforeNumber _ _ ih => exact ih
  | sign sign _ ih =>
    obtain ⟨c, child⟩ := ih
    exact ⟨_, .sign sign child⟩
  | sum sum _ _ ihl ihr =>
    obtain ⟨l, left⟩ := ihl
    obtain ⟨r, right⟩ := ihr
    exact ⟨_, .sum sum left right⟩
  | fromNumber _ ih =>
    obtain ⟨c, child⟩ := ih
    exact ⟨_, .sign rfl child⟩
  | timesNumber _ ih =>
    obtain ⟨c, child⟩ := ih
    exact ⟨_, .timesNumber child⟩
  | scale product _ ih =>
    obtain ⟨c, child⟩ := ih
    exact ⟨_, .scale product child⟩

/-- The tree has a normal form, and derivatives of any order can be pushed into it. -/
def Pushable (t : Tree) : Prop :=
  ∃ t', t.normalForm = some t' ∧ ∀ k, ∃ d, Pushes k t' d

/-- An operation that passes derivatives on to its one operand. -/
theorem Pushable.above {c : Tree} (child : c.Pushable) (f : Tree → Tree)
    (normal : t.normalForm = c.normalForm.map f)
    (passes : ∀ k c' d, Pushes k c' d → ∃ d', Pushes k (f c') d') : t.Pushable := by
  obtain ⟨c', form, pushes⟩ := child
  refine ⟨f c', by rw [normal, form, Option.map_some], fun k => ?_⟩
  obtain ⟨d, below⟩ := pushes k
  exact passes k c' d below

theorem Differentiable.pushable (differentiable : t.Differentiable) : t.Pushable := by
  induction differentiable with
  | leaf var => exact ⟨_, rfl, fun k => ⟨_, .leaf var⟩⟩
  | independent => exact ⟨_, rfl, fun k => ⟨_, .independent⟩⟩
  | constant v => exact ⟨_, rfl, fun k => ⟨_, .constant v⟩⟩
  | @sign op c sign _ ih =>
    exact ih.above (.unary op) rfl fun k c' d below => ⟨_, .sign sign below⟩
  | @sum op l r sum _ _ ihl ihr =>
    obtain ⟨l', normal, pushes⟩ := ihl
    obtain ⟨r', normal', pushes'⟩ := ihr
    refine ⟨_, Option.bind_eq_some_iff.mpr ⟨l', normal, Option.map_eq_some_iff.mpr
      ⟨r', normal', rfl⟩⟩, fun k => ?_⟩
    obtain ⟨d, left⟩ := pushes k
    obtain ⟨d', right⟩ := pushes' k
    exact ⟨_, .sum sum left right⟩
  | @afterNumber op n c sum _ ih =>
    apply ih.above (.valueTree op (.number n)) rfl
    intro k c' d below
    rcases sum with rfl | rfl
    · exact ⟨_, .afterNumber below⟩
    · exact ⟨_, .fromNumber below⟩
  | @beforeNumber op c n sum _ ih =>
    exact ih.above (.treeValue op · (.number n)) rfl fun k c' d below => ⟨_, .beforeNumber sum below⟩
  | @numberTimes n c _ ih =>
    exact ih.above (.valueTree .times (.number n)) rfl fun k c' d below => ⟨_, .timesNumber below⟩
  | @timesNumber c n _ ih =>
    exact ih.above (.treeValue .times · (.number n)) rfl fun k c' d below =>
      ⟨_, .scale (Or.inl rfl) below⟩
  | @overNumber c n _ ih =>
    exact ih.above (.treeValue .rdivide · (.number n)) rfl fun k c' d below =>
      ⟨_, .scale (Or.inr rfl) below⟩
  | @derivative c order _ ih =>
    -- the normal form is what has been pushed once, and it can be pushed again
    obtain ⟨c', normal, pushes⟩ := ih
    obtain ⟨d, first⟩ := pushes order
    exact ⟨d, Option.bind_eq_some_iff.mpr ⟨c', normal, push_of_pushes first⟩, first.again⟩

/-- A tree belongs to the grammar if a derivative can be pushed into its normal form. -/
theorem differentiable_of_pushes {d : Tree} (normal : t.normalForm = some t')
    (pushes : Pushes k t' d) : t.Differentiable := by
  induction t generalizing t' d k with
  | leaf var => exact .leaf var
  | independent => exact .independent
  | constant v => exact .constant v
  | slot =>
    cases normal
    cases pushes
  -- a derivative that has a normal form has been pushed into that of its child
  | derivative c order ih =>
    obtain ⟨c', child, pushed⟩ := Option.bind_eq_some_iff.mp normal
    exact .derivative (ih child (pushes_of_push pushed))
  | unary op c ih =>
    obtain ⟨c', child, rfl⟩ := Option.map_eq_some_iff.mp normal
    cases pushes with
    | sign sign below => exact .sign sign (ih child below)
  | valueTree op v c ih =>
    obtain ⟨c', child, rfl⟩ := Option.map_eq_some_iff.mp normal
    cases pushes with
    | afterNumber below => exact .afterNumber (Or.inl rfl) (ih child below)
    | fromNumber below => exact .afterNumber (Or.inr rfl) (ih child below)
    | timesNumber below => exact .numberTimes (ih child below)
  | treeValue op c v ih =>
    obtain ⟨c', child, rfl⟩ := Option.map_eq_some_iff.mp normal
    cases pushes with
    | beforeNumber sum below => exact .beforeNumber sum (ih child below)
    | scale product below =>
      rcases product with rfl | rfl
      · exact .timesNumber (ih child below)
      · exact .overNumber (ih child below)
  | treeTree op l r ihl ihr =>
    obtain ⟨l', left, rest⟩ := Option.bind_eq_some_iff.mp normal
    obtain ⟨r', right, rfl⟩ := Option.map_eq_some_iff.mp rest
    cases pushes with
    | sum sum below below' => exact .sum sum (ihl left below) (ihr right below')

/-- The derivatives in a tree are derivatives of trees that can be differentiated. -/
def Regular (t : Tree) : Prop :=
  ∀ c k, .derivative c k ∈ t.parts → c.Differentiable

theorem Regular.child (regular : t.Regular) : ∀ c ∈ t.children, c.Regular :=
  fun _ hc d k occurs => regular d k (mem_parts.mpr (Or.inr ⟨_, hc, occurs⟩))

theorem regular_operation (operation : ∀ c k, t ≠ .derivative c k)
    (children : ∀ c ∈ t.children, c.Regular) : t.Regular := by
  intro c k occurs
  rcases mem_parts.mp occurs with eq | ⟨d, hd, inner⟩
  · exact absurd eq.symm (operation c k)
  · exact children d hd c k inner

/-- The derivatives in a tree that has a normal form are regular. -/
theorem regular_of_normalForm (normal : t.normalForm = some t') : t.Regular := by
  induction t generalizing t' with
  | leaf | independent | constant | slot => exact regular_operation (by simp) (by simp [children])
  | unary op c ih | valueTree op v c ih | treeValue op c v ih =>
    obtain ⟨c', child, rfl⟩ := Option.map_eq_some_iff.mp normal
    apply regular_operation (by simp)
    intro d hd
    obtain rfl := List.mem_singleton.mp hd
    exact ih child
  | treeTree op l r ihl ihr =>
    obtain ⟨l', left, rest⟩ := Option.bind_eq_some_iff.mp normal
    obtain ⟨r', right, rfl⟩ := Option.map_eq_some_iff.mp rest
    apply regular_operation (by simp)
    intro d hd
    obtain rfl | rfl : d = l ∨ d = r := by simpa [children] using hd
    · exact ihl left
    · exact ihr right
  | derivative c order ih =>
    obtain ⟨c', child, pushed⟩ := Option.bind_eq_some_iff.mp normal
    intro d k occurs
    rcases mem_parts.mp occurs with eq | ⟨e, he, inner⟩
    · obtain ⟨rfl, rfl⟩ := Tree.derivative.inj eq
      exact differentiable_of_pushes child (pushes_of_push pushed)
    · obtain rfl := List.mem_singleton.mp he
      exact ih child d k inner

/-- A tree has a normal form if and only if it is regular. -/
theorem normalForm_isSome_iff : (∃ t', t.normalForm = some t') ↔ t.Regular := by
  refine ⟨fun ⟨t', normal⟩ => regular_of_normalForm normal, fun regular => ?_⟩
  induction t with
  | leaf | independent | constant | slot => exact ⟨_, rfl⟩
  | unary op c ih | valueTree op v c ih | treeValue op c v ih =>
    obtain ⟨c', child⟩ := ih (regular.child c List.mem_cons_self)
    exact ⟨_, Option.map_eq_some_iff.mpr ⟨c', child, rfl⟩⟩
  | treeTree op l r ihl ihr =>
    obtain ⟨l', left⟩ := ihl (regular.child l (by simp [children]))
    obtain ⟨r', right⟩ := ihr (regular.child r (by simp [children]))
    exact ⟨_, Option.bind_eq_some_iff.mpr ⟨l', left, Option.map_eq_some_iff.mpr ⟨r', right, rfl⟩⟩⟩
  | derivative c k ih =>
    have operand : c.Differentiable := regular c k (mem_parts.mpr (Or.inl rfl))
    exact operand.derivative.pushable.imp fun _ => And.left

end Tree

end JetForm
