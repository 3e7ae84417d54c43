import JetForm.Proofs.Program.Reading
import JetForm.Proofs.Reduction.Repeatable
import JetForm.Proofs.Reduction.Slots
import JetForm.Proofs.Reduction.Substitute

/-! # State entries in normal trees

    A normal tree with state entries in place of its unknowns and derivatives is
    lowered.  They cannot be put there if some derivative has no entry, or if
    some quotient cannot be recorded again.  No slot is looked up in vain as long
    as all unknowns have entries. -/

namespace JetForm

namespace Tree

variable {r : Registry} {slots : SlotTable}

/-- The second tree is the first one with state entries in place of its unknowns and of their
    derivatives. -/
inductive Replaces (slots : SlotTable) : Tree → Tree → Prop
  | leaf {var s : Nat} (slot : slots.slot? var 0 = some s) : Replaces slots (.leaf var) (.slot s var 0)
  | independent : Replaces slots .independent .independent
  | constant (v : Value) : Replaces slots (.constant v) (.constant v)
  | slot (index : Int) (var : Nat) (order : Int) :
    Replaces slots (.slot index var order) (.slot index var order)
  | unary (op : UnaryOp) {c c' : Tree} (child : Replaces slots c c') :
    Replaces slots (.unary op c) (.unary op c')
  | valueTree (op : BinaryOp) (v : Value) {c c' : Tree} (child : Replaces slots c c') :
    Replaces slots (.valueTree op v c) (.valueTree op v c')
  | treeValue (op : BinaryOp) (v : Value) {c c' : Tree} (child : Replaces slots c c') :
    Replaces slots (.treeValue op c v) (.treeValue op c' v)
  | treeTree (op : BinaryOp) {l l' r r' : Tree} (left : Replaces slots l l')
    (right : Replaces slots r r') : Replaces slots (.treeTree op l r) (.treeTree op l' r')
  | derivative {var k s : Nat} (slot : slots.slot? var k = some s) :
    Replaces slots (.derivative (.leaf var) k) (.slot s var k)

/-- Substituting replaces unknowns and their derivatives.  The unknown below a derivative is met
    before the derivative is, but nothing is left of it. -/
theorem replaces_of_substitute {t t' : Tree} (substituted : t.substitute r slots = some t') :
    Replaces slots t t' := by
  induction t generalizing t' with
  | leaf var =>
    obtain ⟨s, slot, rfl⟩ := Option.map_eq_some_iff.mp substituted
    exact .leaf slot
  | independent =>
    cases substituted
    exact .independent
  | constant v =>
    cases substituted
    exact .constant v
  | slot index var order =>
    cases substituted
    exact .slot index var order
  | unary op c ih =>
    obtain ⟨c', child, rfl⟩ := Option.map_eq_some_iff.mp substituted
    exact .unary op (ih child)
  | valueTree op v c ih =>
    obtain ⟨c', child, rfl⟩ := Option.map_eq_some_iff.mp substituted
    exact .valueTree op v (ih child)
  | treeValue op c v ih =>
    obtain ⟨c', child, rfl⟩ := Option.map_eq_some_iff.mp substituted
    exact .treeValue op v (ih child)
  | treeTree op left right ihl ihr =>
    obtain ⟨l', eql, rest⟩ := Option.bind_eq_some_iff.mp substituted
    obtain ⟨r', eqr, rfl⟩ := Option.map_eq_some_iff.mp rest
    exact .treeTree op (ihl eql) (ihr eqr)
  | derivative c k =>
    obtain ⟨var, n, s, rfl, -, -, slot, rfl⟩ := derivative_of_substitute substituted
    exact .derivative slot

theorem lowered_slot {var order : Int} {v s : Nat} (slot : slots.slot? var order = some s) :
    (Tree.slot s v order).lowered slots.size = true := by
  have stored := SlotTable.slot?_eq_some_iff.mp slot
  have inside : s < slots.size := (List.getElem?_eq_some_iff.mp stored).1
  simp [lowered, inside]

/-- The state entries are within the state, and nothing else is left of unknowns
    and derivatives. -/
theorem lowered_substitute {t t' : Tree} (substituted : t.substitute r slots = some t')
    (normal : t.isNormal = true) : t'.lowered slots.size = true := by
  have replaces := replaces_of_substitute substituted
  clear substituted
  induction replaces with
  | leaf slot | derivative slot => exact lowered_slot slot
  | independent | constant => rfl
  | slot => cases normal
  | unary _ _ ih | valueTree _ _ _ ih | treeValue _ _ _ ih => exact ih normal
  | treeTree op _ _ ihl ihr =>
    obtain ⟨normall, normalr⟩ := Bool.and_eq_true_iff.mp normal
    simp [lowered, ihl normall, ihr normalr]

/-- Where state entries can be put for derivatives, an unknown is differentiated less often than
    its order says. -/
theorem diffOrder_lt_of_substitute {t t' : Tree} (substituted : t.substitute r slots = some t')
    {var : Nat} {n : Int} (known : r.orders[var]? = some n) (positive : 0 < n) :
    (t.diffOrder var : Int) < n := by
  induction t generalizing t' with
  | leaf | independent | constant | slot => exact positive
  | unary op c ih | valueTree op v c ih | treeValue op c v ih =>
    obtain ⟨c', child, -⟩ := Option.map_eq_some_iff.mp substituted
    exact ih child
  | treeTree op left right ihl ihr =>
    obtain ⟨l', eql, rest⟩ := Option.bind_eq_some_iff.mp substituted
    obtain ⟨r', eqr, -⟩ := Option.map_eq_some_iff.mp rest
    have left_lt := ihl eql
    have right_lt := ihr eqr
    rw [diffOrder]
    omega
  | derivative c k =>
    obtain ⟨v, m, s, rfl, order, above, -, -⟩ := derivative_of_substitute substituted
    rw [diffOrder]
    split
    next occurs =>
      obtain rfl : v = var := by simpa [dependsOn] using occurs
      obtain rfl : m = n := Option.some.inj (order.symm.trans known)
      show ((0 + k : Nat) : Int) < m
      omega
    next => exact positive

theorem isBare_substitute {t t' : Tree} (substituted : t.substitute r slots = some t') :
    t'.isBare = t.isBare := by
  cases replaces_of_substitute substituted <;> rfl

end Tree

namespace Arena

variable {a b : Arena}

/-- A quotient stays quotable if no other tree becomes bare. -/
theorem Quotable.mapTrees (grown : a.Extends b) {op : BinaryOp} {operands : Operands}
    (stored : a.OperandsStored operands) (quotable : a.Quotable op operands) {child : Nat → Nat}
    (bare : ∀ t ∈ operands.trees, b.isBare (child t) = a.isBare t) :
    b.Quotable op (operands.mapTrees child) := by
  rintro t' v' n rfl shape bare' number nonzero
  cases operands with
  | valueTree | treeTree => cases shape
  | treeValue t v =>
    cases shape
    rw [bare t (by simp [Operands.trees])] at bare'
    rw [(grown.value v' (stored.2 v' (by simp [Operands.values]))).2] at number
    exact quotable t v' n rfl rfl bare' number nonzero

end Arena

/-- The unknowns below `size` are parts of the state. -/
def Registry.Covers (r : Registry) (size : Nat) : Prop :=
  ∀ var < size, ∃ n, r.orders[var]? = some n ∧ 0 < n

namespace Substitute

variable {r : Registry} {a b : Arena}

/-- An unknown that is part of the state has an entry. -/
theorem exists_entry {size var : Nat} (covers : r.Covers size) (inside : var < size) :
    ∃ t, Tree.entry r.slots var 0 = some t := by
  obtain ⟨n, known, positive⟩ := covers var inside
  have slot := Registry.slot?_eq known (show 0 < n.toNat by omega)
  exact ⟨_, Option.map_eq_some_iff.mpr ⟨_, slot, rfl⟩⟩

/-- What is refused at a node of arena `a`: a quotient that cannot be recorded again, an unknown
    without an entry, and a derivative of a compound tree, of an unknown without an order, or of
    an order that is not below the one of the unknown. -/
inductive Refused (a : Arena) (r : Registry) : Node → Error → Prop
  | quotient {op : BinaryOp} {operands : Operands} (refused : ¬ a.Quotable op operands) (f : Fault) :
    Refused a r (.binary op operands) (.fault f)
  | stateless {var : Nat} (missing : Tree.entry r.slots var 0 = none) (e : Error) :
    Refused a r (.leaf var) e
  | compound {c k : Nat} (other : ∀ var, a.node? c ≠ some (.leaf var)) :
    Refused a r (.derivative c k) .compoundDerivative
  | unordered {c k var : Nat} (unknown : a.node? c = some (.leaf var))
    (missing : r.orders[var]? = none) : Refused a r (.derivative c k) .orderIndex
  | highest {c k var : Nat} {n : Int} (unknown : a.node? c = some (.leaf var))
    (known : r.orders[var]? = some n) (above : n ≤ k) :
    Refused a r (.derivative c k) (.highestOutside k var)

namespace Refused

variable {node : Node} {e : Error}

/-- A node that is refused has no form with state entries, unless it is a quotient. -/
theorem substitute {h : Nat} (stored : a.node? h = some node)
    (refused : Refused a r node e) : (a.expression h).substitute r r.slots = none ∨
      ∃ op operands, node = .binary op operands ∧ ¬ a.Quotable op operands := by
  have derivative : ∀ {c k : Nat}, node = .derivative c k →
      (a.expression c).derivativeEntry r r.slots k = none →
      (a.expression h).substitute r r.slots = none := by
    rintro c k rfl missing
    rw [Arena.expression_eq stored]
    show ((a.expression c).substitute r r.slots).bind (fun _ => _) = none
    rw [missing]
    exact Option.bind_fun_none _
  have known : ∀ {c k var : Nat}, node = .derivative c k → a.node? c = some (.leaf var) →
      a.expression c = .leaf var := fun _ unknown => Arena.expression_eq unknown
  -- every way of refusing a node is a missing entry, apart from a quotient the arena refuses
  cases refused with
  | quotient refused f => exact Or.inr ⟨_, _, rfl, refused⟩
  | stateless missing e =>
    left
    rw [Arena.expression_eq stored]
    exact missing
  | @compound c k other =>
    refine Or.inl (derivative rfl ?_)
    have below : c < a.count := Nat.lt_trans
      (a.child_lt h _ stored c (by simp [Node.children])) (Arena.lt_count stored)
    cases shape : a.expression c with
    | leaf var => exact absurd (Arena.node?_of_leaf below shape) (other var)
    | independent | constant | slot | unary | valueTree | treeValue | treeTree | derivative => rfl
  | unordered unknown missing =>
    refine Or.inl (derivative rfl ?_)
    rw [known rfl unknown, Tree.derivativeEntry, missing]
    rfl
  | highest unknown order above =>
    refine Or.inl (derivative rfl ?_)
    rw [known rfl unknown, Tree.derivativeEntry, order, Option.bind_some, if_pos above]

/-- No slot is missing where all unknowns are part of the state. -/
theorem early (wf : a.WellFormed) {h : Nat} (stored : a.node? h = some node)
    (refused : Refused a r node e) (covers : r.Covers a.size) : e.isLate = false := by
  cases refused with
  | quotient | compound | unordered | highest => rfl
  | stateless missing e =>
    obtain ⟨t, eq⟩ := exists_entry covers (wf.admissible h _ stored)
    rw [eq] at missing
    cases missing

end Refused

/-- The entry for a derivative below the order of its unknown exists, and all
    other derivatives are refused before it is looked up. -/
theorem derivative_refused (wf : b.WellFormed) (grown : a.Extends b) {c : Nat} {child : Node}
    (hc : a.node? c = some child) (order : Nat) :
    Ends (derivative r r.slots (some child) order) b (fun _ _ => True)
      fun e _ => Refused a r (.derivative c order) e := by
  have compound : (∀ var, child ≠ .leaf var) → ∀ var, a.node? c ≠ some (.leaf var) := by
    intro other var unknown
    rw [hc] at unknown
    exact other var (Option.some.inj unknown)
  cases child with
  | leaf var =>
    apply Ends.bind
    apply Ends.ofExcept
    rw [Registry.order]
    cases known : r.orders[var]? with
    | none => exact .unordered hc known
    | some n =>
      show Ends (if n ≤ (order : Int) then _ else _) _ _ _
      split
      next above => exact Ends.throw (.highest hc known above)
      next below =>
        have slot := Registry.slot?_eq known (show order < n.toNat by omega)
        apply (stateEntry_ends wf (wf.admissible c _ (grown.node c _ hc)) order).mono
        · exact fun _ _ _ => trivial
        · intro e _ none
          rw [Tree.entry, slot] at none
          cases none
  | independent | constant | slot | unary | binary | derivative =>
    exact Ends.throw (.compound (compound (by simp)))

/-- Meeting a node fails only if the node is refused. -/
theorem meet_refused (start : a.WellFormed) {roots before : List Nat} {h : Nat} {node : Node}
    {memo : Memo} (turn : a.Turn roots before h node)
    (swept : Arena.Swept (Tree.substitute r r.slots) a before memo b) :
    Ends (meet a r r.slots h node memo) b (fun _ _ => True) fun e _ => Refused a r node e := by
  have wf := swept.wellFormed
  have hn := swept.grown.node h node turn.stored
  have child : ∀ c ∈ node.children, c < a.count ∧ memo[c]?.getD c < b.count ∧
      (b.expression c).substitute r r.slots = some (b.expression (memo[c]?.getD c)) := by
    intro c hc
    obtain ⟨q, eq, hq, substituted⟩ := swept.known (turn.children c hc)
    rw [eq]
    have lt := a.child_lt h node turn.stored c hc
    exact ⟨Nat.lt_trans lt (Arena.lt_count turn.stored), hq, substituted⟩
  -- a state entry is as bare as the unknown or the derivative that it stands for
  have bare : ∀ t ∈ node.children, b.isBare (memo[t]?.getD t) = a.isBare t := by
    intro t ht
    obtain ⟨inside, inside', substituted⟩ := child t ht
    rw [← Arena.isBare_expression inside', Tree.isBare_substitute substituted,
      Arena.isBare_expression (swept.grown.lt_count inside), swept.grown.isBare inside]
  have again : ∀ {op operands}, node = .binary op operands → a.Quotable op operands →
      b.Quotable op (operands.mapTrees fun c => memo[c]?.getD c) := by
    rintro op operands rfl quotable
    exact quotable.mapTrees swept.grown (Arena.operandsStored start turn.stored) bare
  apply Ends.bindState
  apply Ends.getState
  -- a node that has been met before is not looked at again
  by_cases known : memo.contains h
  · rw [if_pos known]
    exact Ends.pureState trivial
  rw [if_neg known]
  cases node with
  | leaf var =>
    apply Ends.bindState
    apply Ends.liftState
    apply (stateEntry_ends wf (wf.admissible h _ hn) 0).mono
    · exact fun _ _ _ => Ends.modifyState trivial
    · exact fun e _ missing => .stateless missing e
  | derivative c k =>
    obtain ⟨below, stored⟩ := Arena.node?_isSome.mpr (child c (by simp [Node.children])).1
    dsimp only
    rw [stored]
    apply Ends.bindState
    apply Ends.liftState
    apply (derivative_refused wf swept.grown stored k).mono
    · exact fun _ _ _ => Ends.modifyState trivial
    · exact fun _ _ => id
  | independent | constant | slot | unary | binary =>
    apply Ends.bindState
    apply Ends.liftState
    apply (Arena.copyNode_exact wf hn fun c hc => (child c hc).2.1).mono
    · exact fun _ _ _ => Ends.modifyState trivial
    · rintro e _ ⟨op, operands, f, same, refused, rfl⟩
      rw [same]
      exact .quotient (fun quotable => refused (again same quotable)) f

/-- Substituting in a tree fails only if a node of it is refused. -/
theorem root_refused (wf : a.WellFormed) {h : Nat} (inside : h < a.count) {memo : Memo}
    (known : Arena.Remembers (Tree.substitute r r.slots) memo a) :
    Ends (root r r.slots h memo) a (fun _ _ => True) fun e _ =>
      ∃ g node, a.Reaches h g ∧ a.node? g = some node ∧ Refused a r node e := by
  have roots : ∀ g ∈ [h], g < a.count := by simpa using inside
  have start : Arena.Swept (Tree.substitute r r.slots) a [] memo a :=
    ⟨wf, Arena.Extends.refl a, known, by simp⟩
  apply Ends.bindState
  apply Ends.liftState
  apply Ends.get
  apply Ends.bindState
  apply (Arena.ends_sweepState roots
    (fun before p b => Arena.Swept (Tree.substitute r r.slots) a before p.2 b) start ?_).weaken
  · exact fun _ _ _ => Ends.bindState (Ends.getState (Ends.pureState trivial))
  · intro before g node _ memo b turn swept
    have reach := turn.reaches
    apply ((meet_ends turn swept).and (meet_refused wf turn swept)).mono
    · exact fun _ _ => And.left
    · exact fun e _ refused => ⟨g, node, reach, turn.stored, refused.2⟩

/-- A tree is refused only for a derivative without an entry or for a quotient
    that cannot be recorded again, and no slot is looked up in vain. -/
theorem root_exact (wf : a.WellFormed) {h : Nat} (inside : h < a.count) {memo : Memo}
    (known : Arena.Remembers (Tree.substitute r r.slots) memo a) :
    Ends (root r r.slots h memo) a (fun _ _ => True) fun e _ =>
      ((a.expression h).substitute r r.slots = none ∨ ¬ a.Repeatable h) ∧
      (r.Covers a.size → e.isLate = false) := by
  apply (root_refused wf inside known).mono
  · exact fun _ _ => id
  · rintro e _ ⟨g, node, reach, stored, refused⟩
    refine ⟨?_, refused.early wf stored⟩
    -- what is wrong with a part is wrong with the whole tree
    rcases refused.substitute stored with none | ⟨op, operands, rfl, unquotable⟩
    · exact Or.inl (Arena.expression_of_reaches (Tree.rebuild_none fun _ _ => rfl) reach none)
    · exact Or.inr fun repeatable => unquotable (repeatable g op operands reach stored)

end Substitute

end JetForm
