import JetForm.Proofs.Tree.Halves
import JetForm.Proofs.Tree.Sharing
import JetForm.Reduction.Extract
import Mathlib.Data.Option.Basic

/-! # Extraction is exact

    The pass over shared nodes finds the halves of a tree, whatever else the arena
    holds.  It fails, or says that the leading derivative is inseparable, only
    where the tree has none.  All else that is known of an extraction is read off
    the halves, as trees. -/

namespace JetForm

namespace Extract

variable {a b c : Arena}

/-! ## Parts of a decomposition -/

/-- The part is a handle of the tree, or both are missing. -/
def Reads (a : Arena) : Option Nat → Option Tree → Prop :=
  Option.Rel fun h t => h < a.count ∧ a.expression h = t

theorem Reads.grow {p : Option Nat} {t : Option Tree} (reads : Reads a p t) (wf : a.WellFormed)
    (grown : a.Extends b) : Reads b p t := by
  cases reads with
  | none => exact Option.Rel.none
  | some known =>
    have same := (grown.expression wf known.1).trans known.2
    exact Option.Rel.some ⟨grown.lt_count known.1, same⟩

theorem Reads.eq_map {p : Option Nat} {t : Option Tree} (reads : Reads a p t) :
    t = p.map a.expression ∧ ∀ h, p = some h → h < a.count := by
  cases reads with
  | none => exact ⟨rfl, by simp⟩
  | some known =>
    refine ⟨congrArg some known.2.symm, ?_⟩
    rintro h ⟨⟩
    exact known.1

/-- A part that has been built. -/
structure Gains (a : Arena) (t : Option Tree) (p : Option Nat) (b : Arena) : Prop where
  wellFormed : b.WellFormed
  grown : a.Extends b
  reads : Reads b p t

theorem gains_known (wf : a.WellFormed) {p : Option Nat} {t : Option Tree} (reads : Reads a p t) :
    Gains a t p a :=
  ⟨wf, Arena.Extends.refl a, reads⟩

theorem gains_of_makes {t : Tree} {h : Nat} (made : a.Makes t h b) : Gains a (some t) (some h) b :=
  ⟨made.wellFormed, made.grown, Option.Rel.some ⟨made.inside, made.expression⟩⟩

variable {p q : Option Nat} {s t : Option Tree}

theorem negate_exact (wf : a.WellFormed) (reads : Reads a p t) :
    Ends (negate p) a (Gains a (Tree.negative t)) fun _ _ => False := by
  cases reads with
  | none => exact Ends.pure (gains_known wf Option.Rel.none)
  | some known =>
    apply Ends.map
    apply (Arena.unary_makes wf .uminus known.1).weaken
    rw [known.2]
    exact fun r b made => gains_of_makes made

theorem treeTree_exact (wf : a.WellFormed) (op : BinaryOp) {l r : Nat} {s t : Tree}
    (left : l < a.count ∧ a.expression l = s) (right : r < a.count ∧ a.expression r = t) :
    Ends (some <$> Arena.binary op (.treeTree l r)) a (Gains a (some (.treeTree op s t)))
      fun _ _ => False := by
  apply Ends.map
  apply (Arena.treeTree_makes wf op left.1 right.1).weaken
  rw [left.2, right.2]
  exact fun r b made => gains_of_makes made

theorem add_exact (wf : a.WellFormed) (left : Reads a p s) (right : Reads a q t) :
    Ends (add p q) a (Gains a (Tree.sumOf s t)) fun _ _ => False := by
  cases left with
  | none => exact Ends.pure (gains_known wf right)
  | some known =>
    cases right with
    | none => exact Ends.pure (gains_known wf (Option.Rel.some known))
    | some known' => exact treeTree_exact wf .plus known known'

theorem subtract_exact (wf : a.WellFormed) (left : Reads a p s) (right : Reads a q t) :
    Ends (subtract p q) a (Gains a (Tree.differenceOf s t)) fun _ _ => False := by
  cases right with
  | none =>
    cases left with
    | none => exact Ends.pure (gains_known wf Option.Rel.none)
    | some known => exact Ends.pure (gains_known wf (Option.Rel.some known))
  | some known' =>
    cases left with
    | none => exact negate_exact wf (Option.Rel.some known')
    | some known => exact treeTree_exact wf .minus known known'

/-- The handle of the constant one. -/
def IsOne (a : Arena) (h : Nat) : Prop :=
  h < a.count ∧ a.expression h = .constant (.number (.ofFloat 1))

theorem IsOne.grow {h : Nat} (one : IsOne a h) (wf : a.WellFormed) (grown : a.Extends b) :
    IsOne b h :=
  ⟨grown.lt_count one.1, by rw [grown.expression wf one.1, one.2]⟩

/-- A handle is that of the constant one if its tree is. -/
theorem IsOne.eq_iff (wf : a.WellFormed) {h one : Nat} (isOne : IsOne a one) (inside : h < a.count) :
    h = one ↔ a.expression h = Tree.one := by
  constructor
  · rintro rfl
    exact isOne.2
  · intro same
    exact Arena.expression_injective wf inside isOne.1 (same.trans isOne.2.symm)

/-- A product or quotient with a value. -/
theorem scaleByValue_exact (wf : a.WellFormed) {target : Target} (one : IsOne a target.one)
    {op : BinaryOp} {v : Nat} (inside : v < a.values.size) {operands : Nat → Operands}
    {f : Tree → Option Tree} {reason : Error → Prop} (reads : Reads a p t)
    (build : ∀ h, h < a.count → Ends (Arena.binary op (operands h)) a
      (fun r b => ∃ t, f (a.expression h) = some t ∧ a.Makes t r b)
      fun e _ => f (a.expression h) = none ∧ reason e) :
    Ends (scaleByValue target op v operands p) a
      (fun r b => ∃ t', Tree.scaled op (.constant (a.value v).key) f t = some t' ∧ Gains a t' r b)
      fun e _ => Tree.scaled op (.constant (a.value v).key) f t = none ∧ reason e := by
  cases reads with
  | none => exact Ends.pure ⟨none, rfl, gains_known wf Option.Rel.none⟩
  | @some h t known =>
    obtain ⟨hh, rfl⟩ := known
    rw [scaleByValue]
    simp only [Tree.scaled, ← one.eq_iff wf hh, Bool.and_eq_true, decide_eq_true_eq]
    split
    · apply Ends.map
      apply (Arena.constant_makes wf inside).mono
      · exact fun r b made => ⟨_, rfl, gains_of_makes made⟩
      · exact fun _ _ => False.elim
    · apply Ends.map
      apply (build h hh).mono
      · rintro r b ⟨t, eq, made⟩
        exact ⟨_, by rw [eq]; rfl, gains_of_makes made⟩
      · rintro _ _ ⟨none, why⟩
        rw [none]
        exact ⟨rfl, why⟩

/-- A product or quotient with a tree. -/
theorem scaleByTree_exact (wf : a.WellFormed) {target : Target} (one : IsOne a target.one)
    {op : BinaryOp} {g : Nat} (inside : g < a.count) {operands : Nat → Operands}
    {f : Tree → Option Tree} (reads : Reads a p t)
    (build : ∀ h, h < a.count → Ends (Arena.binary op (operands h)) a
      (fun r b => ∃ t, f (a.expression h) = some t ∧ a.Makes t r b)
      fun _ _ => False) :
    Ends (scaleByTree target op g operands p) a
      (fun r b => ∃ t', Tree.scaled op (a.expression g) f t = some t' ∧ Gains a t' r b)
      fun _ _ => False := by
  cases reads with
  | none => exact Ends.pure ⟨none, rfl, gains_known wf Option.Rel.none⟩
  | @some h t known =>
    obtain ⟨hh, rfl⟩ := known
    rw [scaleByTree]
    simp only [Tree.scaled, ← one.eq_iff wf hh, Bool.and_eq_true, decide_eq_true_eq]
    split
    · exact Ends.pure ⟨_, rfl, gains_of_makes (Arena.makes_stored wf inside)⟩
    · apply Ends.map
      apply (build h hh).weaken
      rintro r b ⟨t, eq, made⟩
      exact ⟨_, by rw [eq]; rfl, gains_of_makes made⟩

/-! ## Both parts -/

/-- The parts are handles of the halves. -/
structure Parts.Read (a : Arena) (p : Parts) (x : Tree.Halves) : Prop where
  coeff : Reads a p.coeff x.coeff
  rest : Reads a p.rest x.rest

theorem Parts.Read.grow {p : Parts} {x : Tree.Halves} (read : p.Read a x) (wf : a.WellFormed)
    (grown : a.Extends b) : p.Read b x :=
  ⟨read.coeff.grow wf grown, read.rest.grow wf grown⟩

/-- A decomposition that has been built. -/
structure Halved (a : Arena) (x : Tree.Halves) (p : Parts) (b : Arena) : Prop where
  wellFormed : b.WellFormed
  grown : a.Extends b
  read : p.Read b x

theorem Gains.halved {coeff rest : Option Nat} (first : Gains a s coeff b)
    (second : Gains b t rest c) : Halved a ⟨s, t⟩ ⟨coeff, rest⟩ c :=
  ⟨second.wellFormed, first.grown.trans second.grown,
    first.reads.grow first.wellFormed second.grown, second.reads⟩

variable {x y : Tree.Halves}

/-- An operation on both parts. -/
theorem mapM_exact (wf : a.WellFormed) {f : Option Nat → Building (Option Nat)}
    {F : Option Tree → Option (Option Tree)} {p : Parts} {reason : Error → Prop} (read : p.Read a x)
    (each : ∀ b q t, b.WellFormed → a.Extends b → Reads b q t →
      Ends (f q) b (fun r c => ∃ t', F t = some t' ∧ Gains b t' r c)
        fun e _ => F t = none ∧ reason e) :
    Ends (p.mapM f) a (fun q b => ∃ y, x.map F = some y ∧ Halved a y q b)
      fun e _ => x.map F = none ∧ reason e := by
  unfold Parts.mapM Tree.Halves.map
  apply Ends.bind
  apply (each a p.coeff x.coeff wf (Arena.Extends.refl a) read.coeff).mono
  · rintro coeff b ⟨s, eq, first⟩
    apply Ends.bind
    apply (each b p.rest x.rest first.wellFormed first.grown
      (read.rest.grow wf first.grown)).mono
    · rintro rest c ⟨t, eq', second⟩
      apply Ends.pure
      exact ⟨⟨s, t⟩, by rw [eq, eq']; rfl, first.halved second⟩
    · rintro _ _ ⟨none, why⟩
      rw [eq, none]
      exact ⟨rfl, why⟩
  · rintro _ _ ⟨none, why⟩
    rw [none]
    exact ⟨rfl, why⟩

theorem combine_exact (wf : a.WellFormed) (op : BinaryOp) {p q : Parts} (left : p.Read a x)
    (right : q.Read a y) :
    Ends (Parts.combine op p q) a (Halved a (x.combine op y)) fun _ _ => False := by
  unfold Parts.combine Tree.Halves.combine
  dsimp only
  split
  · apply Ends.bind
    apply (add_exact wf left.coeff right.coeff).weaken
    intro coeff b first
    apply Ends.bind
    apply (add_exact first.wellFormed (left.rest.grow wf first.grown)
      (right.rest.grow wf first.grown)).weaken
    exact fun rest c second => Ends.pure (first.halved second)
  · apply Ends.bind
    apply (subtract_exact wf left.coeff right.coeff).weaken
    intro coeff b first
    apply Ends.bind
    apply (subtract_exact first.wellFormed (left.rest.grow wf first.grown)
      (right.rest.grow wf first.grown)).weaken
    exact fun rest c second => Ends.pure (first.halved second)

theorem afterValue_exact (wf : a.WellFormed) (op : BinaryOp) {v : Nat} (inside : v < a.values.size)
    {p : Parts} (read : p.Read a x) :
    Ends (p.afterValue op v) a (Halved a (x.afterValue op (a.value v).key))
      fun _ _ => False := by
  obtain ⟨coeff, rest⟩ := p
  obtain ⟨s, t⟩ := x
  -- `v - x` turns the sign of the coefficient too; `v + x` keeps it
  have finish : ∀ r b t', Gains a (some t') (some r) b →
      Ends (do
        let coeff ← if op = .plus then pure coeff else negate coeff
        return (⟨coeff, some r⟩ : Parts)) b
        (Halved a ⟨if op = .plus then s else Tree.negative s, some t'⟩) fun _ _ => False := by
    intro r b t' gains
    have reads := read.coeff.grow wf gains.grown
    by_cases plus : op = .plus
    · rw [if_pos plus, if_pos plus]
      exact Ends.bind (Ends.pure (Ends.pure ⟨gains.wellFormed, gains.grown, reads, gains.reads⟩))
    · rw [if_neg plus, if_neg plus]
      apply Ends.bind
      apply (negate_exact gains.wellFormed reads).weaken
      intro q c first
      exact Ends.pure ⟨first.wellFormed, gains.grown.trans first.grown, first.reads,
        gains.reads.grow gains.wellFormed first.grown⟩
  have known : Reads a rest t := read.rest
  cases known with
  | none =>
    apply Ends.bind
    apply (Arena.constant_makes wf inside).mono
    · exact fun r b made => finish r b _ (gains_of_makes made)
    · exact fun _ _ => False.elim
  | some known =>
    obtain ⟨hr, rfl⟩ := known
    apply Ends.bind
    apply (Arena.valueTree_makes wf op inside hr).mono
    · exact fun r b made => finish r b _ (gains_of_makes made)
    · exact fun _ _ => False.elim

theorem beforeValue_exact (wf : a.WellFormed) {op : BinaryOp} (sum : op = .plus ∨ op = .minus)
    {v : Nat} (inside : v < a.values.size) {p : Parts} (read : p.Read a x) :
    Ends (p.beforeValue op v) a (Halved a (x.beforeValue op (a.value v).key))
      fun _ _ => False := by
  obtain ⟨coeff, rest⟩ := p
  obtain ⟨s, t⟩ := x
  have finish : ∀ r b t', Gains a (some t') (some r) b →
      Ends (pure ⟨coeff, some r⟩ : Building Parts) b (Halved a ⟨s, some t'⟩)
        fun _ _ => False := by
    intro r b t' gains
    exact Ends.pure ⟨gains.wellFormed, gains.grown, read.coeff.grow wf gains.grown, gains.reads⟩
  -- without a rest the number itself becomes the rest, negated below a minus
  have known : Reads a rest t := read.rest
  cases known with
  | none =>
    rcases sum with rfl | rfl
    · apply Ends.bind
      apply (Arena.constant_makes wf inside).weaken
      exact fun r b made => finish r b _ (gains_of_makes made)
    · apply Ends.bind
      apply (Arena.constant_makes wf inside).weaken
      intro r b first
      apply Ends.bind
      apply (Arena.unary_makes first.wellFormed .uminus first.inside).weaken
      intro q c second
      rw [first.expression] at second
      exact finish q c _ (gains_of_makes (second.after first.grown))
  | some known =>
    obtain ⟨hr, rfl⟩ := known
    have made : Ends (Arena.binary op (.treeValue _ v)) a _ fun _ _ => False :=
      (Arena.treeValue_makes wf op hr inside).mono (fun _ _ => id) (by
        rcases sum with rfl | rfl <;> exact fun _ _ => nofun)
    rcases sum with rfl | rfl
    · exact Ends.bind (made.weaken fun r b made => finish r b _ (gains_of_makes made))
    · exact Ends.bind (made.weaken fun r b made => finish r b _ (gains_of_makes made))

/-! ## The pass -/

namespace Target

/-- What the pass looks for in the tree below a handle. -/
def halves (target : Target) (a : Arena) (h : Nat) : Option Tree.Halves :=
  (a.expression h).halve target.var target.order

/-- What is looked for is an unknown of the arena, with the constant one. -/
structure Suits (target : Target) (a : Arena) : Prop where
  var : target.var < a.size
  one : IsOne a target.one

theorem Suits.grow {target : Target} (suits : target.Suits a) (wf : a.WellFormed)
    (grown : a.Extends b) : target.Suits b :=
  ⟨grown.size ▸ suits.var, suits.one.grow wf grown⟩

theorem isIn_iff {target : Target} (suits : target.Suits a) (wf : a.WellFormed) {h : Nat}
    (inside : h < a.count) :
    target.isIn a h = true ↔ target.order ≤ (a.expression h).diffOrder target.var := by
  rw [isIn, Arena.diffOrder_info wf inside, Arena.expression, Tree.diffOrder_keyed]
  simp [suits.var]

/-- Is the derivative separable in the tree below a handle? -/
def separable (target : Target) (a : Arena) (h : Nat) : Bool :=
  (a.expression h).separable target.var target.order

/-- How the pass may stop: the tree has no halves, it divides by a number that has no
    reciprocal, and this is the fault. -/
def Refuses (target : Target) (a : Arena) (h : Nat) (e : Error) : Prop :=
  target.halves a h = none ∧ (a.expression h).invertible = false ∧ ∃ f, e = .fault f

end Target

theorem mask_iff (wf : a.WellFormed) {h : Nat} (inside : h < a.count) :
    (a.info h).mask ≠ 0 ↔ (a.expression h).isClosed = false := by
  have closed : (a.expression h).Closed ↔ (a.info h).mask = 0 := by
    simp only [Tree.Closed, Arena.expression, Tree.dependsOn_keyed,
      ← Arena.testBit_mask wf inside]
    constructor
    · exact fun closed => Nat.eq_of_testBit_eq fun var => by simp [closed var]
    · intro zero var
      rw [zero, Nat.zero_testBit]
  rw [← Bool.not_eq_true, Tree.isClosed_iff, closed]

/-- The answer for a tree of an arena: handles of its halves, or that the derivative is
    inseparable. -/
structure Answers (target : Target) (a : Arena) (h : Nat) (r : Option Parts) (b : Arena) : Prop where
  halves : Option.Rel (fun p x => Parts.Read b p x) r (target.halves a h)
  inseparable : r = none → target.separable a h = false

theorem Answers.grow {target : Target} {h : Nat} {r : Option Parts}
    (answers : Answers target a h r b) (wf : b.WellFormed) (grown : b.Extends c) :
    Answers target a h r c := by
  obtain ⟨halves, inseparable⟩ := answers
  refine ⟨?_, inseparable⟩
  generalize target.halves a h = o at halves ⊢
  cases halves with
  | none => exact Option.Rel.none
  | some read => exact Option.Rel.some (read.grow wf grown)

/-- An answer is about the tree, so it is one in every arena that holds the tree. -/
theorem Answers.congr {target : Target} {h : Nat} {r : Option Parts}
    (answers : Answers target a h r c) (same : b.expression h = a.expression h) :
    Answers target b h r c := by
  obtain ⟨halves, inseparable⟩ := answers
  constructor
  · rwa [Target.halves, same]
  · rwa [Target.separable, same]

/-- What is remembered are such answers. -/
def Retains (target : Target) (memo : Std.HashMap Nat (Option Parts)) (a : Arena) : Prop :=
  ∀ (h : Nat) r, memo[h]? = some r → h < a.count ∧ Answers target a h r a

theorem Retains.grow {target : Target} {memo : Std.HashMap Nat (Option Parts)}
    (retains : Retains target memo a) (wf : a.WellFormed) (grown : a.Extends b) :
    Retains target memo b := by
  intro h r known
  obtain ⟨inside, answers⟩ := retains h r known
  exact ⟨grown.lt_count inside, (answers.grow wf grown).congr (grown.expression wf inside)⟩

/-- The pass has given an answer, and remembers it. -/
structure Concludes (a : Arena) (target : Target) (h : Nat)
    (r : Option Parts × Std.HashMap Nat (Option Parts)) (b : Arena) : Prop where
  wellFormed : b.WellFormed
  grown : a.Extends b
  retains : Retains target r.2 b
  answers : Answers target a h r.1 b

/-- Remember the outcome for a node. -/
def remember (h : Nat) (r : Option Parts) : Extracting (Option Parts) := do
  modify (·.insert h r)
  return r

/-- Continue with the decomposition of a child. -/
def above (target : Target) (h c : Nat) (f : Parts → Building Parts) :
    Extracting (Option Parts) := do
  let p ← split target c
  let r ← liftM (onParts p f)
  remember h r

/-- Join the decompositions of two children. -/
def between (target : Target) (h l r : Nat) (op : BinaryOp) : Extracting (Option Parts) := do
  let p ← split target l
  let q ← split target r
  match p, q with
  | some p, some q => do
    let r ← some <$> (liftM (Parts.combine op p q) : Extracting Parts)
    remember h r
  | _, _ => do
    let r ← pure none
    remember h r

/-- Decompose a product: one factor may contain the derivative, and the other one is a
    function of the independent variable. -/
def product (target : Target) (a : Arena) (h l r : Nat) : Extracting (Option Parts) :=
  if target.isIn a l && target.isIn a r then do
    let r ← pure none
    remember h r
  else if target.isIn a l then
    if (a.info r).mask ≠ 0 then do
      let r ← pure none
      remember h r
    else above target h l (Parts.mapM (scaleByTree target .times r fun x => .treeTree x r))
  else
    if (a.info l).mask ≠ 0 then do
      let r ← pure none
      remember h r
    else above target h r (Parts.mapM (scaleByTree target .times l fun x => .treeTree l x))

/-- Decompose a quotient. -/
def quotient (target : Target) (a : Arena) (h l r : Nat) : Extracting (Option Parts) :=
  if target.isIn a r || (a.info r).mask ≠ 0 then do
    let r ← pure none
    remember h r
  else above target h l (Parts.mapM (scaleByTree target .rdivide r fun x => .treeTree x r))

variable {target : Target} {memo : Std.HashMap Nat (Option Parts)} {h g : Nat}

theorem remember_exact (wf : a.WellFormed) (inside : h < a.count) {r : Option Parts}
    (concludes : Concludes a target h (r, memo) b)
    {failed : Error → Arena → Prop} :
    Ends (remember h r memo) b (Concludes a target h) failed := by
  unfold remember
  apply Ends.bindState
  apply Ends.modifyState
  apply Ends.pureState
  refine ⟨concludes.wellFormed, concludes.grown, ?_, concludes.answers⟩
  intro k q known
  rw [Std.HashMap.getElem?_insert] at known
  split at known
  next same =>
    obtain rfl := beq_iff_eq.mp same
    cases known
    exact ⟨concludes.grown.lt_count inside,
      concludes.answers.congr (concludes.grown.expression wf inside)⟩
  next => exact concludes.retains k q known

/-- A visit of the pass to a node that contains the derivative.  It gets to the children
    in this arena or in one that it grows into. -/
structure Visit (target : Target) (a : Arena) (h : Nat) (node : Node) : Prop where
  wf : a.WellFormed
  suits : target.Suits a
  stored : a.node? h = some node
  isIn : target.order ≤ (a.expression h).diffOrder target.var
  children : ∀ c ∈ node.children, ∀ b memo, b.WellFormed → a.Extends b → Retains target memo b →
    Ends (split target c memo) b (Concludes b target c) fun e _ => target.Refuses b c e

namespace Visit

section

variable {node : Node} (visit : Visit target a h node)

include visit

theorem inside : h < a.count :=
  Arena.lt_count visit.stored

theorem child_inside (hg : g ∈ node.children) : g < a.count :=
  Nat.lt_trans (a.child_lt h node visit.stored g hg) visit.inside

theorem child (hg : g ∈ node.children) (retains : Retains target memo a) :
    Ends (split target g memo) a (Concludes a target g) fun e _ => target.Refuses a g e :=
  visit.children g hg a memo visit.wf (Arena.Extends.refl a) retains

/-- What cannot be inverted in a child cannot be inverted in the tree. -/
theorem up (hg : g ∈ node.children) (bad : (a.expression g).invertible = false) :
    (a.expression h).invertible = false := by
  rw [← Bool.not_eq_true] at bad ⊢
  refine mt (fun good => Tree.invertible_of_child good _ ?_) bad
  rw [Arena.expression_eq visit.stored, Arena.children_expressionOf]
  exact List.mem_map_of_mem hg

theorem big : ¬ (a.expressionOf node).diffOrder target.var < target.order := by
  rw [← Arena.expression_eq visit.stored]
  exact Nat.not_lt_of_le visit.isIn

/-- What the tree falls into is read off its first operation. -/
theorem halves_eq {below o : Option Tree.Halves}
    (unfolded : (a.expressionOf node).halve target.var target.order =
      if (a.expressionOf node).diffOrder target.var < target.order then below else o) :
    target.halves a h = o := by
  rw [Target.halves, Arena.expression_eq visit.stored, unfolded, if_neg visit.big]

/-- So is whether the derivative is separable. -/
theorem separable_eq {below o : Bool}
    (unfolded : (a.expressionOf node).separable target.var target.order =
      if (a.expressionOf node).diffOrder target.var < target.order then below else o) :
    target.separable a h = o := by
  rw [Target.separable, Arena.expression_eq visit.stored, unfolded, if_neg visit.big]

/-- An inseparable node. -/
theorem inseparable (retains : Retains target memo a) (nothing : target.halves a h = none)
    (refused : target.separable a h = false) {failed : Error → Arena → Prop} :
    Ends ((do let r ← pure none; remember h r : Extracting (Option Parts)) memo) a
      (Concludes a target h) failed := by
  refine Ends.bindState (Ends.pureState (remember_exact visit.wf visit.inside ?_))
  refine ⟨visit.wf, Arena.Extends.refl a, retains, ?_, fun _ => refused⟩
  rw [nothing]
  exact Option.Rel.none

/-- An operation on the decomposition of a child. -/
theorem above_exact (retains : Retains target memo a) (hg : g ∈ node.children)
    {f : Parts → Building Parts} {F : Tree.Halves → Option Tree.Halves}
    (shape : target.halves a h = (target.halves a g).bind F)
    (passed : target.separable a h = target.separable a g)
    (parent : ∀ b p x, b.WellFormed → a.Extends b → p.Read b x →
      Ends (f p) b (fun q c => ∃ y, F x = some y ∧ Halved b y q c) fun e _ =>
        F x = none ∧ (a.expression h).invertible = false ∧ ∃ f, e = .fault f) :
    Ends (above target h g f memo) a (Concludes a target h) fun e _ => target.Refuses a h e := by
  unfold above
  apply Ends.bindState
  apply (visit.child hg retains).mono
  · rintro ⟨r, memo'⟩ b ⟨wf', grown, retains, answers, inseparable⟩
    rw [← passed] at inseparable
    apply Ends.bindState
    apply Ends.liftState
    generalize target.halves a g = o at answers shape
    -- no halves below, no halves here; otherwise the answer is decided by `F`
    cases answers with
    | none =>
      apply Ends.pure
      apply remember_exact visit.wf visit.inside
      refine ⟨wf', grown, retains, ?_, inseparable⟩
      rw [shape]
      exact Option.Rel.none
    | @some p x read =>
      apply Ends.map
      apply (parent b p x wf' grown read).mono
      · rintro q c ⟨y, eq, halved⟩
        apply remember_exact visit.wf visit.inside
        refine ⟨halved.wellFormed, grown.trans halved.grown, retains.grow wf' halved.grown, ?_,
          by simp⟩
        rw [shape, Option.bind_some, eq]
        exact Option.Rel.some halved.read
      · rintro _ _ ⟨none, why⟩
        exact ⟨by rw [shape, Option.bind_some, none], why⟩
  · rintro _ _ ⟨none, why, fault⟩
    exact ⟨by rw [shape, none]; rfl, visit.up hg why, fault⟩

/-- The same for an operation that cannot fail. -/
theorem above_total (retains : Retains target memo a) (hg : g ∈ node.children)
    {f : Parts → Building Parts} {F : Tree.Halves → Tree.Halves}
    (shape : target.halves a h = (target.halves a g).map F)
    (passed : target.separable a h = target.separable a g)
    (parent : ∀ b p x, b.WellFormed → a.Extends b → p.Read b x →
      Ends (f p) b (Halved b (F x)) fun _ _ => False) :
    Ends (above target h g f memo) a (Concludes a target h) fun e _ => target.Refuses a h e := by
  apply visit.above_exact retains hg (F := fun x => some (F x)) ?_ passed
  · intro b p x wf' grown read
    apply (parent b p x wf' grown read).mono
    · exact fun q c halved => ⟨_, rfl, halved⟩
    · exact fun _ _ => False.elim
  · rw [shape]
    cases target.halves a g <;> rfl

/-- An operation with a closed tree on both parts of a child. -/
theorem scaled_exact (retains : Retains target memo a) {k : Nat} (hg : g ∈ node.children)
    (hk : k ∈ node.children) {operands : Nat → Operands} {f : Tree → Tree} {op : BinaryOp}
    (build : ∀ b x, b.WellFormed → x < b.count → k < b.count →
      b.expression k = a.expression k →
      Ends (Arena.binary op (operands x)) b (fun q d => b.Makes (f (b.expression x)) q d)
        fun _ _ => False)
    (shape : target.halves a h = (target.halves a g).bind (Tree.Halves.map
      (Tree.scaled op (a.expression k) fun t => some (f t))))
    (passed : target.separable a h = target.separable a g) :
    Ends (above target h g (Parts.mapM (scaleByTree target op k operands)) memo) a
      (Concludes a target h) fun e _ => target.Refuses a h e := by
  have inside := visit.child_inside hk
  apply visit.above_exact retains hg shape passed
  intro b p x wf' grown read
  apply mapM_exact wf' read
  intro d q t wf'' grown' reads
  have grown := grown.trans grown'
  have same := grown.expression visit.wf inside
  rw [← same]
  refine (scaleByTree_exact wf'' (visit.suits.one.grow visit.wf grown) (grown.lt_count inside)
    reads ?_).mono (fun _ _ => id) fun _ _ => False.elim
  intro y hy
  exact (build d y wf'' hy (grown.lt_count inside) same).weaken fun r d made => ⟨_, rfl, made⟩

end

/-! ### The operations -/

variable (retains : Retains target memo a)

include retains

/-- A derivative is the one that is extracted, or a higher one. -/
theorem derivative_exact {k : Nat} (visit : Visit target a h (.derivative g k)) :
    Ends ((do
      let r ← pure (if k = target.order && a.node? g == some (.leaf target.var) then
        some ⟨some target.one, none⟩ else none)
      remember h r : Extracting (Option Parts)) memo) a (Concludes a target h)
      fun e _ => target.Refuses a h e := by
  have shape : target.halves a h =
      if k = target.order ∧ a.expression g = .leaf target.var then
        some ⟨some Tree.one, none⟩ else none := visit.halves_eq (Tree.halve.eq_def ..)
  have passed : target.separable a h =
      decide (k = target.order ∧ a.expression g = .leaf target.var) :=
    visit.separable_eq (Tree.separable.eq_def ..)
  have hg := visit.child_inside (g := g) (by simp [Node.children])
  have leaf : a.node? g = some (.leaf target.var) ↔ a.expression g = .leaf target.var :=
    ⟨fun hn => Arena.expression_eq hn, Arena.node?_of_leaf hg⟩
  simp only [Bool.and_eq_true, decide_eq_true_eq, beq_iff_eq, leaf]
  by_cases same : k = target.order ∧ a.expression g = .leaf target.var
  · rw [if_pos same] at shape ⊢
    refine Ends.bindState (Ends.pureState (remember_exact visit.wf visit.inside ?_))
    refine ⟨visit.wf, Arena.Extends.refl a, retains, ?_, by simp⟩
    rw [shape]
    exact Option.Rel.some ⟨Option.Rel.some visit.suits.one, Option.Rel.none⟩
  · rw [if_neg same] at shape ⊢
    exact visit.inseparable retains shape (passed.trans (decide_eq_false same))

/-- A plus sign changes nothing. -/
theorem uplus_exact (visit : Visit target a h (.unary .uplus g)) :
    Ends ((do let r ← split target g; remember h r : Extracting (Option Parts)) memo) a
      (Concludes a target h) fun e _ => target.Refuses a h e := by
  have only : g ∈ (Node.unary .uplus g).children := by simp [Node.children]
  have same : target.halves a h = target.halves a g := visit.halves_eq (Tree.halve.eq_def ..)
  have passed : target.separable a h = target.separable a g :=
    visit.separable_eq (Tree.separable.eq_def ..)
  apply Ends.bindState
  apply (visit.child only retains).mono
  · rintro r b ⟨wf', grown, retains', halves, inseparable⟩
    rw [← same] at halves
    rw [← passed] at inseparable
    exact remember_exact visit.wf visit.inside ⟨wf', grown, retains', halves, inseparable⟩
  · rintro _ _ ⟨none, why, fault⟩
    exact ⟨same.trans none, visit.up only why, fault⟩

/-- A minus sign changes both parts. -/
theorem uminus_exact (visit : Visit target a h (.unary .uminus g)) :
    Ends (above target h g (Parts.mapM negate) memo) a (Concludes a target h)
      fun e _ => target.Refuses a h e := by
  apply visit.above_exact retains (by simp [Node.children])
    (visit.halves_eq (Tree.halve.eq_def ..)) (visit.separable_eq (Tree.separable.eq_def ..))
  intro b p x wf' _ read
  apply mapM_exact wf' read
  intro c q t wf'' _ reads
  exact (negate_exact wf'' reads).mono (fun r d gains => ⟨_, rfl, gains⟩) fun _ _ => False.elim

variable {l r : Nat}

/-- A sum or difference of two children. -/
theorem between_exact {op : BinaryOp} (visit : Visit target a h (.binary op (.treeTree l r)))
    (shape : target.halves a h = (target.halves a l).bind fun x =>
      (target.halves a r).map (Tree.Halves.combine op x))
    (both : target.separable a h = (target.separable a l && target.separable a r)) :
    Ends (between target h l r op memo) a (Concludes a target h)
      fun e _ => target.Refuses a h e := by
  have left : l ∈ (Node.binary op (.treeTree l r)).children := by
    simp [Node.children, Operands.trees]
  have right : r ∈ (Node.binary op (.treeTree l r)).children := by
    simp [Node.children, Operands.trees]
  unfold between
  apply Ends.bindState
  apply (visit.child left retains).mono
  · rintro ⟨p, memo₁⟩ b first
    have same := first.grown.expression visit.wf (visit.child_inside right)
    apply Ends.bindState
    apply (visit.children r right b memo₁ first.wellFormed first.grown first.retains).mono
    · rintro ⟨q, memo₂⟩ c second
      have grown := first.grown.trans second.grown
      obtain ⟨answersl, inseparablel⟩ := first.answers.grow first.wellFormed second.grown
      obtain ⟨answersr, inseparabler⟩ := second.answers.congr same.symm
      dsimp only at answersl answersr inseparablel inseparabler
      -- a side without halves leaves the whole without, and memoises that as the answer
      have nothing : target.halves a h = none → target.separable a h = false →
          Ends (remember h none memo₂) c (Concludes a target h)
            fun e _ => target.Refuses a h e := by
        intro none inseparable
        apply remember_exact visit.wf visit.inside
        refine ⟨second.wellFormed, grown, second.retains, ?_, fun _ => inseparable⟩
        rw [none]
        exact Option.Rel.none
      -- both sides have answered: the pairs of answers follow the `Option` of the tree function
      generalize target.halves a l = o at answersl shape
      generalize target.halves a r = o' at answersr shape
      cases answersl with
      | none =>
        refine Ends.bindState (Ends.pureState (nothing shape ?_))
        rw [both, inseparablel rfl, Bool.false_and]
      | @some p x readl =>
        cases answersr with
        | none =>
          refine Ends.bindState (Ends.pureState (nothing shape ?_))
          rw [both, inseparabler rfl, Bool.and_false]
        | @some q y readr =>
          apply Ends.bindState
          apply Ends.bind
          apply Ends.liftState
          apply (combine_exact second.wellFormed op readl readr).mono ?_ (fun _ _ => False.elim)
          intro s d halved
          refine Ends.pure (remember_exact visit.wf visit.inside ?_)
          refine ⟨halved.wellFormed, grown.trans halved.grown,
            second.retains.grow second.wellFormed halved.grown, ?_, by simp⟩
          rw [shape]
          exact Option.Rel.some halved.read
    · rintro _ _ ⟨none, why, fault⟩
      rw [Target.halves, same] at none
      refine ⟨?_, visit.up right (same ▸ why), fault⟩
      rw [shape]
      show (target.halves a l).bind (fun x => ((a.expression r).halve _ _).map _) = _
      rw [none]
      cases target.halves a l <;> rfl
  · rintro _ _ ⟨none, why, fault⟩
    exact ⟨by rw [shape, none]; rfl, visit.up left why, fault⟩

theorem product_exact (visit : Visit target a h (.binary .times (.treeTree l r))) :
    Ends (product target a h l r memo) a (Concludes a target h)
      fun e _ => target.Refuses a h e := by
  have left : l ∈ (Node.binary .times (.treeTree l r)).children := by
    simp [Node.children, Operands.trees]
  have right : r ∈ (Node.binary .times (.treeTree l r)).children := by
    simp [Node.children, Operands.trees]
  have shape : target.halves a h =
      if target.order ≤ (a.expression l).diffOrder target.var ∧
          target.order ≤ (a.expression r).diffOrder target.var then none
      else if target.order ≤ (a.expression l).diffOrder target.var then
        if (a.expression r).isClosed then
          (target.halves a l).bind (Tree.Halves.map (Tree.scaled .times (a.expression r)
            fun t => some (.treeTree .times t (a.expression r))))
        else none
      else if (a.expression l).isClosed then
        (target.halves a r).bind (Tree.Halves.map (Tree.scaled .times (a.expression l)
          fun t => some (.treeTree .times (a.expression l) t)))
      else none := visit.halves_eq (Tree.halve.eq_def ..)
  have passed : target.separable a h =
      if target.order ≤ (a.expression l).diffOrder target.var ∧
          target.order ≤ (a.expression r).diffOrder target.var then false
      else if target.order ≤ (a.expression l).diffOrder target.var then
        (a.expression r).isClosed && target.separable a l
      else (a.expression l).isClosed && target.separable a r :=
    visit.separable_eq (Tree.separable.eq_def ..)
  -- the branches of the program test masks; the tree function tests orders and closed factors
  unfold product
  simp only [Bool.and_eq_true, Target.isIn_iff visit.suits visit.wf (visit.child_inside left),
    Target.isIn_iff visit.suits visit.wf (visit.child_inside right),
    mask_iff visit.wf (visit.child_inside left), mask_iff visit.wf (visit.child_inside right)]
  split
  next both =>
    rw [if_pos both] at shape passed
    exact visit.inseparable retains shape passed
  next notBoth =>
    rw [if_neg notBoth] at shape passed
    split
    next inl =>
      rw [if_pos inl] at shape passed
      split
      next opened =>
        rw [opened] at shape passed
        exact visit.inseparable retains shape passed
      next closed =>
        rw [eq_true_of_ne_false closed] at shape passed
        apply visit.scaled_exact retains left right ?_ shape passed
        intro b x wf' hx hg same
        rw [← same]
        exact Arena.treeTree_makes wf' .times hx hg
    next notInl =>
      rw [if_neg notInl] at shape passed
      split
      next opened =>
        rw [opened] at shape passed
        exact visit.inseparable retains shape passed
      next closed =>
        rw [eq_true_of_ne_false closed] at shape passed
        apply visit.scaled_exact retains right left ?_ shape passed
        intro b x wf' hx hg same
        rw [← same]
        exact Arena.treeTree_makes wf' .times hg hx

theorem quotient_exact (visit : Visit target a h (.binary .rdivide (.treeTree l r))) :
    Ends (quotient target a h l r memo) a (Concludes a target h)
      fun e _ => target.Refuses a h e := by
  have left : l ∈ (Node.binary .rdivide (.treeTree l r)).children := by
    simp [Node.children, Operands.trees]
  have right : r ∈ (Node.binary .rdivide (.treeTree l r)).children := by
    simp [Node.children, Operands.trees]
  have shape : target.halves a h =
      if target.order ≤ (a.expression r).diffOrder target.var ∨
          (a.expression r).isClosed = false then none
      else
        (target.halves a l).bind (Tree.Halves.map (Tree.scaled .rdivide (a.expression r)
          fun t => some (.treeTree .rdivide t (a.expression r)))) :=
    visit.halves_eq (Tree.halve.eq_def ..)
  have passed : target.separable a h =
      if target.order ≤ (a.expression r).diffOrder target.var ∨
          (a.expression r).isClosed = false then false
      else target.separable a l := visit.separable_eq (Tree.separable.eq_def ..)
  unfold quotient
  simp only [Bool.or_eq_true, decide_eq_true_eq,
    Target.isIn_iff visit.suits visit.wf (visit.child_inside right),
    mask_iff visit.wf (visit.child_inside right)]
  split
  next opened =>
    rw [if_pos opened] at shape passed
    exact visit.inseparable retains shape passed
  next closed =>
    rw [if_neg closed] at shape passed
    apply visit.scaled_exact retains left right ?_ shape passed
    intro b x wf' hx hg same
    rw [← same]
    exact Arena.treeTree_makes wf' .rdivide hx hg

variable {v t : Nat} {op : BinaryOp}

/-- A value plus or minus a tree. -/
theorem afterValue_exact (visit : Visit target a h (.binary op (.valueTree v t)))
    (shape : target.halves a h =
      (target.halves a t).map (Tree.Halves.afterValue op (a.value v).key))
    (passed : target.separable a h = target.separable a t) :
    Ends (above target h t (Parts.afterValue op v) memo) a (Concludes a target h)
      fun e _ => target.Refuses a h e := by
  have stored := visit.wf.values h _ visit.stored v (by simp [Node.values, Operands.values])
  apply visit.above_total retains (by simp [Node.children, Operands.trees]) shape passed
  intro b p x wf' grown read
  obtain ⟨stored', same⟩ := grown.value v stored
  rw [← same]
  exact Extract.afterValue_exact wf' _ stored' read

/-- A value times a tree. -/
theorem valueTimes_exact (visit : Visit target a h (.binary .times (.valueTree v t))) :
    Ends (above target h t (Parts.mapM (scaleByValue target .times v (.valueTree v))) memo) a
      (Concludes a target h) fun e _ => target.Refuses a h e := by
  have stored := visit.wf.values h _ visit.stored v (by simp [Node.values, Operands.values])
  apply visit.above_exact retains (by simp [Node.children, Operands.trees])
    (visit.halves_eq (Tree.halve.eq_def ..)) (visit.separable_eq (Tree.separable.eq_def ..))
  intro b p x wf' grown read
  apply mapM_exact wf' read
  intro c q s wf'' grown' reads
  obtain ⟨stored', same⟩ := (grown.trans grown').value v stored
  rw [← same]
  apply scaleByValue_exact wf'' (visit.suits.one.grow visit.wf (grown.trans grown')) stored' reads
  intro y hy
  exact (Arena.valueTree_makes wf'' .times stored' hy).mono
    (fun r d made => ⟨_, rfl, made⟩) fun _ _ => False.elim

/-- A tree plus or minus a value. -/
theorem beforeValue_exact (sum : op = .plus ∨ op = .minus)
    (visit : Visit target a h (.binary op (.treeValue t v)))
    (shape : target.halves a h =
      (target.halves a t).map (Tree.Halves.beforeValue op (a.value v).key))
    (passed : target.separable a h = target.separable a t) :
    Ends (above target h t (Parts.beforeValue op v) memo) a (Concludes a target h)
      fun e _ => target.Refuses a h e := by
  have stored := visit.wf.values h _ visit.stored v (by simp [Node.values, Operands.values])
  apply visit.above_total retains (by simp [Node.children, Operands.trees]) shape passed
  intro b p x wf' grown read
  obtain ⟨stored', same⟩ := grown.value v stored
  rw [← same]
  exact Extract.beforeValue_exact wf' sum stored' read

/-- A tree times or through a value.  Only here a part can be refused. -/
theorem byValue_exact (visit : Visit target a h (.binary op (.treeValue t v)))
    (shape : target.halves a h = (target.halves a t).bind (Tree.Halves.map
      (Tree.scaled op (.constant (a.value v).key) (Tree.withValue op (a.value v).key))))
    (passed : target.separable a h = target.separable a t) :
    Ends (above target h t (Parts.mapM (scaleByValue target op v fun x => .treeValue x v)) memo) a
      (Concludes a target h) fun e _ => target.Refuses a h e := by
  have stored := visit.wf.values h _ visit.stored v (by simp [Node.values, Operands.values])
  apply visit.above_exact retains (by simp [Node.children, Operands.trees]) shape passed
  intro b p x wf' grown read
  apply mapM_exact wf' read
  intro c q s wf'' grown' reads
  obtain ⟨stored', same⟩ := (grown.trans grown').value v stored
  rw [← same]
  apply scaleByValue_exact wf'' (visit.suits.one.grow visit.wf (grown.trans grown')) stored' reads
  intro y hy
  apply (Arena.treeValue_exact wf'' op hy stored').mono
  · exact fun r d known => ⟨_, if_pos known.2, known.1⟩
  · rintro _ _ ⟨refused, fault⟩
    refine ⟨by rw [Tree.withValue, refused]; rfl, ?_, fault⟩
    -- the number by which the part was to be divided stands in the tree
    rw [Arena.expression_eq visit.stored]
    rw [same] at refused
    show (_ && _) = false
    rw [Tree.inverse_of_not_divisible refused]
    rfl

end Visit

/-- The pass finds the halves of a tree, and it stops only if there are none and a
    quotient cannot be recorded. -/
theorem split_exact (wf : a.WellFormed) (suits : target.Suits a) (inside : h < a.count)
    (retains : Retains target memo a) :
    Ends (split target h memo) a (Concludes a target h)
      fun e _ => target.Refuses a h e := by
  -- children have smaller handles
  induction h using Nat.strongRecOn generalizing a memo with
  | _ h ih =>
  rw [split]
  apply Ends.bindState
  apply Ends.getState
  cases stored : memo[h]? with
  | some r => exact Ends.pureState ⟨wf, Arena.Extends.refl a, retains, (retains h r stored).2⟩
  | none =>
    apply Ends.bindState
    apply Ends.liftState
    apply Ends.get
    by_cases isIn : target.isIn a h
    case neg =>
      simp only [isIn]
      apply Ends.bindState
      apply Ends.pureState
      apply remember_exact wf inside
      have below := Nat.lt_of_not_le (mt (Target.isIn_iff suits wf inside).mpr isIn)
      refine ⟨wf, Arena.Extends.refl a, retains, ?_, by simp⟩
      rw [Target.halves, Tree.halve_of_lt below]
      exact Option.Rel.some ⟨Option.Rel.none, Option.Rel.some ⟨inside, rfl⟩⟩
    simp only [isIn, Bool.not_true, Bool.false_eq_true, if_false]
    obtain ⟨node, hn⟩ := Arena.node?_isSome.mpr inside
    have visit : Visit target a h node := by
      refine ⟨wf, suits, hn, (Target.isIn_iff suits wf inside).mp isIn, ?_⟩
      intro c hc b memo' wf' grown retains'
      have smaller := a.child_lt h node hn c hc
      exact ih c smaller wf' (suits.grow wf grown)
        (grown.lt_count (Nat.lt_trans smaller inside)) retains'
    -- the pass matches on the node that is stored
    generalize a.node? h = stored at hn ⊢
    subst hn
    cases node with
    | leaf | independent | constant | slot =>
      exact visit.inseparable retains (visit.halves_eq (Tree.halve.eq_def ..))
        (visit.separable_eq (Tree.separable.eq_def ..))
    | derivative c k => exact visit.derivative_exact retains
    | unary op c =>
      cases op with
      | uplus => exact visit.uplus_exact retains
      | uminus => exact visit.uminus_exact retains
      | _ =>
        exact visit.inseparable retains (visit.halves_eq (Tree.halve.eq_def ..))
          (visit.separable_eq (Tree.separable.eq_def ..))
    | binary op operands =>
      cases operands with
      | treeTree l r =>
        cases op with
        | plus | minus =>
          exact visit.between_exact retains (visit.halves_eq (Tree.halve.eq_def ..))
            (visit.separable_eq (Tree.separable.eq_def ..))
        | times => exact visit.product_exact retains
        | rdivide => exact visit.quotient_exact retains
        | power =>
          exact visit.inseparable retains (visit.halves_eq (Tree.halve.eq_def ..))
            (visit.separable_eq (Tree.separable.eq_def ..))
      | valueTree v t =>
        cases op with
        | plus | minus =>
          exact visit.afterValue_exact retains (visit.halves_eq (Tree.halve.eq_def ..))
            (visit.separable_eq (Tree.separable.eq_def ..))
        | times => exact visit.valueTimes_exact retains
        | rdivide | power =>
          exact visit.inseparable retains (visit.halves_eq (Tree.halve.eq_def ..))
            (visit.separable_eq (Tree.separable.eq_def ..))
      | treeValue t v =>
        cases op with
        | plus | minus =>
          exact visit.beforeValue_exact retains (by simp) (visit.halves_eq (Tree.halve.eq_def ..))
            (visit.separable_eq (Tree.separable.eq_def ..))
        | times | rdivide =>
          exact visit.byValue_exact retains (visit.halves_eq (Tree.halve.eq_def ..))
            (visit.separable_eq (Tree.separable.eq_def ..))
        | power =>
          exact visit.inseparable retains (visit.halves_eq (Tree.halve.eq_def ..))
            (visit.separable_eq (Tree.separable.eq_def ..))

end Extract

/-- What has been extracted: the coefficient and the rest of a tree. -/
structure Leading.Reads (a : Arena) (leading : Leading) (x : Tree × Option Tree) (b : Arena) :
    Prop where
  wellFormed : b.WellFormed
  grown : a.Extends b
  coeff : Extract.Reads b (some leading.coeff) (some x.1)
  rest : Extract.Reads b leading.rest x.2

theorem Leading.Reads.eq {a b : Arena} {l : Leading} {x : Tree × Option Tree}
    (reads : l.Reads a x b) : x = (b.expression l.coeff, l.rest.map b.expression) ∧
      l.coeff < b.count ∧ ∀ r, l.rest = some r → r < b.count := by
  obtain ⟨coeff, inside⟩ := reads.coeff.eq_map
  obtain ⟨rest, insideRest⟩ := reads.rest.eq_map
  exact ⟨Prod.ext (Option.some.inj coeff) rest, inside _ rfl, insideRest⟩

/-- **Extraction is exact.**  It gives what `Tree.lead` gives.  It gives nothing where this is
    nothing, for the reason that the operations do not let the derivative be separated or that it
    does not occur.  It fails only if the tree divides by a number that has no reciprocal, with
    this fault. -/
theorem Arena.extractLeading_exact {a : Arena} (wf : a.WellFormed) {root : Nat}
    (inside : root < a.count) {var : Nat} (known : var < a.size) (order : Nat) :
    Ends (extractLeading root var order) a
      (fun leading b => (leading = none ∧ (a.expression root).lead var order = none ∧
          ((a.expression root).separable var order = true →
            ∃ x, (a.expression root).halve var order = some x)) ∨
        ∃ l x, leading = some l ∧ (a.expression root).lead var order = some x ∧
          l.Reads a x b)
      fun e _ => (a.expression root).lead var order = none ∧
        (a.expression root).invertible = false ∧ ∃ f, e = .fault f := by
  unfold extractLeading
  apply Ends.bind
  apply (constantOf_makes wf _).mono ?_ (fun _ _ => False.elim)
  intro one b made
  have size : b.size = a.size := made.grown.size
  have same := made.grown.expression wf inside
  have suits : Extract.Target.Suits ⟨var, order, one⟩ b := by
    refine ⟨size ▸ known, made.inside, ?_⟩
    rw [made.expression, Value.key_one]
  have empty : Extract.Retains ⟨var, order, one⟩ ∅ b := by
    intro h r found
    simp at found
  have whole := Extract.split_exact made.wellFormed suits (made.grown.lt_count inside) empty
  apply Ends.bind
  apply Ends.get
  -- the unknown is one of the arena, so the range check of the traversal passes
  have enough : ¬ ((b.size : Int) ≤ (var : Int) ∨ (var : Int) < -(b.size : Int)) := by omega
  show Ends (if _ then _ else _) _ _ _
  rw [if_neg (by simpa using enough)]
  apply Ends.bind
  apply Ends.map
  apply whole.mono
  · rintro ⟨parts, memo⟩ c ⟨wf', grown, -, answers⟩
    obtain ⟨halves, inseparable⟩ := answers.congr same.symm
    unfold Tree.lead
    change Option.Rel _ parts ((a.expression root).halve var order) at halves
    generalize (a.expression root).halve var order = o at halves
    cases halves with
    | none =>
      refine Ends.pure (Or.inl ⟨rfl, rfl, fun separable => ?_⟩)
      cases (inseparable rfl).symm.trans separable
    | @some p x read =>
      obtain ⟨coeff, rest⟩ := p
      obtain ⟨s, t⟩ := x
      have coeffs : Extract.Reads c coeff s := read.coeff
      cases coeffs with
      | none => exact Ends.pure (Or.inl ⟨rfl, rfl, fun _ => ⟨_, rfl⟩⟩)
      | some known =>
        apply Ends.pure
        exact Or.inr ⟨_, _, rfl, rfl, wf', made.grown.trans grown, Option.Rel.some known, read.rest⟩
  · rintro _ _ ⟨none, why⟩
    change (b.expression root).halve var order = Option.none at none
    rw [same] at none why
    exact ⟨by rw [Tree.lead, none]; rfl, why⟩

end JetForm
