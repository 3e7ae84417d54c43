import JetForm.Proofs.Reduction.Acceptance
import JetForm.Proofs.Reduction.Entries
import JetForm.Proofs.Reduction.Halves
import JetForm.Proofs.Reduction.Turns
import JetForm.Proofs.Tree.Adopt
import JetForm.Proofs.Tree.Separation

/-! # When equations can be split

    Splitting works on handles, and the handles that it gets depend on what its
    arena holds already.  Whether it succeeds does not, and the expressions of what
    it returns do not either.  An equation can be solved for an unknown if

    - its tree has a leading coefficient,
    - which is accepted,
    - and a rest in which state entries can be put for the derivatives.

    The equations that result are those of `Tree.top`, behind the entries that
    follow one another.  `Arena.split_ends` says so of all unknowns, and gives every
    reason for which a split fails.  All else that is known of the first-order form is
    read off the trees. -/

namespace JetForm

namespace Tree

/-! ## The last equation of an unknown -/

/-- `target - rest`, where either part may be zero. -/
def remainder : Option Tree → Option Tree → Tree
  | none, some rest => .unary .uminus rest
  | none, none => .constant (.number (.ofFloat 0))
  | some target, none => target
  | some target, some rest => .treeTree .minus target rest

/-- The remainder over the coefficient, which is left out if it is one. -/
def top (unit : Bool) (coeff : Tree) (target rest : Option Tree) : Tree :=
  if unit then remainder target rest else .treeTree .rdivide (remainder target rest) coeff

/-- The rest of an equation with state entries, if there are such entries. -/
def substituteRest (r : Registry) : Option Tree → Option (Option Tree)
  | none => some none
  | some rest => some <$> rest.substitute r r.slots

/-- The state entries of an unknown but the first. -/
def chain (r : Registry) (var order : Nat) : List Tree :=
  (List.range (order - 1)).map fun (j : Nat) =>
    .slot (r.start var + (j + 1) : Nat) var (j + 1 : Nat)

theorem getElem?_chain (r : Registry) (var : Nat) {order j : Nat} (below : j + 1 < order) :
    (chain r var order)[j]? = some (.slot (r.start var + (j + 1) : Nat) var (j + 1 : Nat)) := by
  rw [chain, List.getElem?_map, List.getElem?_range (by omega), Option.map_some]

theorem length_chain (r : Registry) (var order : Nat) : (chain r var order).length = order - 1 := by
  rw [chain, List.length_map, List.length_range]

theorem isClosed_of_lowered {t : Tree} (low : t.lowered 0 = true) : t.isClosed = true := by
  induction t with
  | leaf | derivative => cases low
  | independent | constant => rfl
  | slot index var order =>
    have bounds : 0 ≤ index ∧ index < 0 := by simpa [lowered] using low
    omega
  | unary op c ih | valueTree op v c ih | treeValue op c v ih => exact ih low
  | treeTree op l r ihl ihr =>
    obtain ⟨left, right⟩ := Bool.and_eq_true_iff.mp low
    simp [isClosed, ihl left, ihr right]

/-- The coefficient of a normal tree reads no state, and no derivative is left in it. -/
theorem lowered_of_lead {t : Tree} (normal : t.isNormal = true) {var order : Nat}
    {x : Tree × Option Tree} (lead : t.lead var order = some x) : x.1.lowered 0 = true := by
  have closed : x.1.isClosed = true := (separates_of_lead lead).closed _ rfl
  exact lowered_of_isNormal (hereditary_isNormal.lead normal lead).1 (isClosed_iff.mp closed)

end Tree

namespace Split

open Extract

variable {a b : Arena} {p q : Option Nat} {s t : Option Tree}

/-! ## Right-hand sides -/

/-- Wherever it is built, the right-hand side is a tree with a property, where none is
    zero; or it is refused for a reason. -/
def Supplies (a : Arena) (s : RightHandSide) (side : Option Tree → Prop)
    (reason : Error → Prop) : Prop :=
  ∀ b : Arena, b.WellFormed → a.Extends b →
    Ends (rightHandSide s) b (fun p c => ∃ t, side t ∧ Gains b t p c) fun e _ => reason e

theorem Supplies.grow {s : RightHandSide} {side : Option Tree → Prop} {reason : Error → Prop}
    (supplies : Supplies a s side reason) (grown : a.Extends b) : Supplies b s side reason :=
  fun c wf later => supplies c wf (grown.trans later)

/-- Wherever it is built, the right-hand side is the tree; none is zero. -/
abbrev Provides (a : Arena) (s : RightHandSide) (t : Option Tree) : Prop :=
  Supplies a s (· = t) fun _ => False

theorem provides_zero (a : Arena) : Provides a .zero none :=
  fun _ wf _ => Ends.pure ⟨none, rfl, gains_known wf Option.Rel.none⟩

/-- A number or an external function is a constant on the right. -/
theorem provides_value (a : Arena) (v : Value) : Provides a (.value v) (some (.constant v.key)) := by
  intro b wf _
  apply Ends.map
  apply (Arena.constantOf_makes wf v).weaken
  exact fun h c made => ⟨_, rfl, gains_of_makes made⟩

/-- An expression of another arena that reads no state can be copied, and it is a
    right-hand side. -/
theorem provides_tree {source : Arena} (source_wf : source.WellFormed) (size : source.size = a.size)
    {h : Nat} (inside : h < source.count) (low : (source.expression h).lowered 0 = true) :
    Provides a (.tree (some source) h) (some (source.expression h)) := by
  intro b wf grown
  apply Ends.bind
  apply (Arena.adopt_exact source_wf wf inside).mono
  · intro g c made
    apply Ends.bind
    apply Ends.get
    have closed : ¬ (c.info g).mask ≠ 0 := by
      rw [mask_iff made.wellFormed made.inside, made.expression]
      simp [Tree.isClosed_of_lowered low]
    rw [if_neg closed]
    exact Ends.pure ⟨_, rfl, gains_of_makes made⟩
  · rintro _ _ (different | broken)
    · exact different (size.trans grown.size.symm)
    · rw [Tree.solid_of_lowered low] at broken
      cases broken

/-! ## The parts of an equation -/

/-- The difference of two parts is built. -/
theorem difference_exact (wf : a.WellFormed) (left : Reads a p s) (right : Reads a q t) :
    Ends (difference p q) a (a.Makes (Tree.remainder s t)) fun _ _ => False := by
  cases left with
  | none =>
    cases right with
    | none =>
      apply (Arena.constantOf_makes wf _).weaken
      rw [Value.key_zero]
      exact fun _ _ => id
    | some known =>
      apply (Arena.unary_makes wf .uminus known.1).weaken
      rw [known.2]
      exact fun _ _ => id
  | some known =>
    cases right with
    | none =>
      apply Ends.pure
      rw [← known.2]
      exact Arena.makes_stored wf known.1
    | some known' =>
      apply (Arena.treeTree_makes wf .minus known.1 known'.1).weaken
      rw [known.2, known'.2]
      exact fun _ _ => id

/-- The last equation is built. -/
theorem top_exact (wf : a.WellFormed) {c : LeadingCoefficient} {coeff : Tree}
    (divisor : Reads a (some c.handle) (some coeff)) (left : Reads a p s) (right : Reads a q t) :
    Ends (top c p q) a (a.Makes (Tree.top (c.constant.any (· == 1)) coeff s t))
      fun _ _ => False := by
  apply Ends.bind
  apply (difference_exact wf left right).weaken
  intro h b made
  unfold Tree.top
  split
  next => exact Ends.pure made
  next =>
    cases divisor with
    | some known =>
      apply (Arena.treeTree_makes made.wellFormed .rdivide made.inside
        (made.grown.lt_count known.1)).weaken
      intro g d made'
      rw [made.expression, made.grown.expression wf known.1, known.2] at made'
      exact made'.after made.grown

/-- The state entries that follow one another are built. -/
theorem chain_exact (wf : a.WellFormed) {r : Registry} {var : Nat} (inside : var < a.size) {n : Int}
    (known : r.orders[var]? = some n) :
    Ends (chain r.slots var n.toNat) a
      (fun hs b => b.WellFormed ∧ a.Extends b ∧ (∀ h ∈ hs, h < b.count) ∧
        hs.map b.expression = Tree.chain r var n.toNat)
      fun _ _ => False := by
  -- the entries that have been built so far
  refine Ends.mapM (fun (before : List Nat) hs b => b.WellFormed ∧ a.Extends b ∧
    (∀ h ∈ hs, h < b.count) ∧ hs.map b.expression = before.map fun (j : Nat) =>
      Tree.slot (r.start var + (j + 1) : Nat) var (j + 1 : Nat))
    ⟨wf, Arena.Extends.refl a, by simp, rfl⟩ ?_
  rintro before j after hs b eq ⟨wf', grown, stored, entries⟩
  have below : j + 1 < n.toNat := by
    have mem : j ∈ List.range (n.toNat - 1) := by simp [eq]
    have := List.mem_range.mp mem
    omega
  apply (Substitute.stateEntry_ends wf' (grown.size ▸ inside) (j + 1)).mono
  · rintro h c ⟨t, entry, made⟩
    rw [Tree.entry, Registry.slot?_eq known below] at entry
    cases entry
    have old : hs.map c.expression = hs.map b.expression :=
      List.map_congr_left fun h hh => made.grown.expression wf' (stored h hh)
    refine ⟨made.wellFormed, grown.trans made.grown, ?_, ?_⟩
    · intro g hg
      rcases List.mem_append.mp hg with hg | hg
      · exact made.grown.lt_count (stored g hg)
      · exact List.mem_singleton.mp hg ▸ made.inside
    · rw [List.map_append, List.map_append, old, entries, List.map_singleton, made.expression]
      rfl
  · intro _ _ none
    rw [Tree.entry, Registry.slot?_eq known below] at none
    cases none

/-- No state entries can be put into the rest of an equation.  If every unknown has a slot,
    no slot is looked up in vain. -/
structure Unfit (r : Registry) (size : Nat) (rest : Option Tree) (e : Error) : Prop where
  none : (∀ t, rest = some t → t.solid = true) → Tree.substituteRest r rest = none
  early : r.Covers size → e.isLate = false

/-- State entries are put into the rest. -/
theorem rest_exact (wf : a.WellFormed) {r : Registry} {memo : Substitute.Memo}
    (known : Arena.Remembers (Tree.substitute r r.slots) memo a) (reads : Reads a p s) :
    Ends (p.mapM (Substitute.root r r.slots) memo) a
      (fun q b => (∃ t, Tree.substituteRest r s = some t ∧ Gains a t q.1 b) ∧
        Arena.Remembers (Tree.substitute r r.slots) q.2 b)
      fun e _ => Unfit r a.size s e := by
  cases reads with
  | none => exact Ends.pureState ⟨⟨none, rfl, gains_known wf Option.Rel.none⟩, known⟩
  | @some h t here =>
    obtain ⟨inside, rfl⟩ := here
    apply Ends.mapState
    apply ((Substitute.root_ends wf inside known).and
      (Substitute.root_exact wf inside known)).mono
    · rintro q b ⟨⟨⟨t, substituted, made⟩, known'⟩, -⟩
      refine ⟨⟨some t, ?_, gains_of_makes made⟩, known'⟩
      simp [Tree.substituteRest, substituted]
    · rintro e b ⟨-, refused, early⟩
      refine ⟨fun solid => ?_, early⟩
      rcases refused with none | broken
      · simp [Tree.substituteRest, none]
      · exact absurd ((Arena.repeatable_iff wf inside).mpr (solid _ rfl)) broken

/-! ## The equations of an unknown -/

/-- The tree can be solved for the derivative of an unknown: it has a coefficient
    and a rest, and `rest` is the latter with state entries. -/
structure Solvable (base : Arena) (r : Registry) (d : Domain Float) (options : ReductionOptions)
    (var order : Nat) (t : Tree) (x : Tree × Option Tree) (rest : Option Tree) : Prop where
  lead : t.lead var order = some x
  accepts : LeadingCoefficient.Accepts base d options var order x.1
  substituted : Tree.substituteRest r x.2 = some rest

/-- The equations of an unknown are those of a coefficient, a right-hand side and
    a rest. -/
structure Solved (base : Arena) (r : Registry) (var order : Nat) (coeff : Tree)
    (target rest : Option Tree) (q : List Nat × LeadingCoefficient) (b : Arena) : Prop where
  made : LeadingCoefficient.Made base var order coeff q.2
  handle : Reads b (some q.2.handle) (some coeff)
  inside : ∀ h ∈ q.1, h < b.count
  equations : q.1.map b.expression = Tree.chain r var order ++
    [Tree.top (q.2.constant.any (· == 1)) coeff target rest]

variable {base : Arena} {r : Registry} {d : Domain Float} {options : ReductionOptions}

namespace Solved

variable {var order : Nat} {coeff : Tree} {target rest : Option Tree}
  {q : List Nat × LeadingCoefficient}

theorem grow (solved : Solved base r var order coeff target rest q a) (wf : a.WellFormed)
    (grown : a.Extends b) : Solved base r var order coeff target rest q b where
  made := solved.made
  handle := solved.handle.grow wf grown
  inside h hh := grown.lt_count (solved.inside h hh)
  equations := by
    rw [← solved.equations]
    exact List.map_congr_left fun h hh => grown.expression wf (solved.inside h hh)

theorem coefficient (solved : Solved base r var order coeff target rest q b) :
    q.2.handle < b.count ∧ b.expression q.2.handle = coeff := by
  cases solved.handle with
  | some known => exact known

theorem length (solved : Solved base r var order coeff target rest q b) (positive : 0 < order) :
    q.1.length = order := by
  have same := congrArg List.length solved.equations
  rw [List.length_map, List.length_append, Tree.length_chain, List.length_singleton] at same
  omega

theorem getElem? (solved : Solved base r var order coeff target rest q b) {j : Nat} {t : Tree}
    (listed : (q.1.map b.expression)[j]? = some t) :
    ∃ h, q.1[j]? = some h ∧ h < b.count ∧ b.expression h = t := by
  rw [List.getElem?_map] at listed
  obtain ⟨h, found, same⟩ := Option.map_eq_some_iff.mp listed
  exact ⟨h, found, solved.inside h (List.mem_of_getElem? found), same⟩

end Solved

/-- Handle `h` is that of the state entry for derivative `k` of an unknown. -/
def IsEntry (r : Registry) (var k : Nat) (a : Arena) (h : Nat) : Prop :=
  h < a.count ∧ a.expression h = .slot (r.start var + k : Nat) var k

/-- The derivatives of all entries but the last are the next entries. -/
theorem Solved.lower {var order : Nat} {coeff : Tree} {target rest : Option Tree}
    {q : List Nat × LeadingCoefficient}
    (solved : Solved base r var order coeff target rest q b) {j : Nat} (below : j + 1 < order) :
    ∃ h, q.1[j]? = some h ∧ IsEntry r var (j + 1) b h := by
  apply solved.getElem?
  rw [solved.equations, List.getElem?_append_left (by rw [Tree.length_chain]; omega),
    Tree.getElem?_chain r var below]

/-- The last equation is the equation of the unknown. -/
theorem Solved.last {var order : Nat} {coeff : Tree} {target rest : Option Tree}
    {q : List Nat × LeadingCoefficient}
    (solved : Solved base r var order coeff target rest q b) :
    ∃ h, q.1[order - 1]? = some h ∧ h < b.count ∧
      b.expression h = Tree.top (q.2.constant.any (· == 1)) coeff target rest := by
  apply solved.getElem?
  rw [solved.equations, ← Tree.length_chain r var order, List.getElem?_concat_length]

/-- With an accepted coefficient only the rest and the right-hand side can be refused. -/
theorem assemble_exact (wf : a.WellFormed) {var : Nat} (inside : var < a.size)
    {n : Int} (known : r.orders[var]? = some n) {c : LeadingCoefficient} {coeff : Tree}
    (divisor : Reads a (some c.handle) (some coeff)) (reads : Reads a p s) {given : RightHandSide}
    {side : Option Tree → Prop} {reason : Error → Prop} (supplies : Supplies a given side reason)
    {memo : Substitute.Memo} (remembers : Arena.Remembers (Tree.substitute r r.slots) memo a) :
    Ends ((do
        let lower ← chain r.slots var n.toNat
        let rest ← p.mapM (Substitute.root r r.slots)
        let target ← rightHandSide given
        let last ← top c target rest
        return (lower ++ [last], c) :
          Substitute.Substituting (List Nat × LeadingCoefficient)) memo) a
      (fun q b => (b.WellFormed ∧ a.Extends b ∧
        Arena.Remembers (Tree.substitute r r.slots) q.2 b) ∧ q.1.2 = c ∧
        (∀ h ∈ q.1.1, h < b.count) ∧ ∃ target rest, side target ∧
          Tree.substituteRest r s = some rest ∧
          q.1.1.map b.expression = Tree.chain r var n.toNat ++
            [Tree.top (c.constant.any (· == 1)) coeff target rest])
      fun e _ => Unfit r a.size s e ∨ reason e := by
  apply Ends.bindState
  apply Ends.liftState
  apply (chain_exact wf inside known).mono ?_ fun _ _ => False.elim
  rintro lower b ⟨wf₁, grown₁, below, entries⟩
  apply Ends.bindState
  apply (rest_exact wf₁ (remembers.grow wf grown₁) (reads.grow wf grown₁)).mono
  case error => exact fun e _ unfit => Or.inl (grown₁.size ▸ unfit)
  rintro ⟨part, memo'⟩ b₂ ⟨⟨rest, substituted, gains⟩, remembers'⟩
  have wf₂ := gains.wellFormed
  apply Ends.bindState
  apply Ends.liftState
  apply (supplies b₂ wf₂ (grown₁.trans gains.grown)).mono ?_ fun _ _ => Or.inr
  rintro side' b₃ ⟨target, wanted, gains'⟩
  have wf₃ := gains'.wellFormed
  have later := grown₁.trans (gains.grown.trans gains'.grown)
  apply Ends.bindState
  apply Ends.liftState
  apply (top_exact wf₃ (divisor.grow wf later) gains'.reads
    (gains.reads.grow wf₂ gains'.grown)).mono ?_ fun _ _ => False.elim
  intro last b₄ top
  -- the lower equations were built first: they keep their meaning while the last one is built
  have rest_grown := gains.grown.trans (gains'.grown.trans top.grown)
  apply Ends.pureState
  refine ⟨⟨top.wellFormed, later.trans top.grown,
    remembers'.grow wf₂ (gains'.grown.trans top.grown)⟩, rfl, ?_, target, rest, wanted,
    substituted, ?_⟩
  · intro h hh
    rcases List.mem_append.mp hh with hh | hh
    · exact rest_grown.lt_count (below h hh)
    · exact List.mem_singleton.mp hh ▸ top.inside
  · have same : lower.map b₄.expression = lower.map b.expression :=
      List.map_congr_left fun h hh => rest_grown.expression wf₁ (below h hh)
    rw [List.map_append, same, entries, List.map_singleton, top.expression]

/-- Why there are no equations for an unknown: its derivative cannot be extracted, the
    coefficient has no program or vanishes, a derivative is left in the rest, or the
    right-hand side is refused. -/
inductive Unsolved (base : Arena) (r : Registry) (d : Domain Float) (options : ReductionOptions)
    (var order : Nat) (t : Tree) (reason : Error → Prop) (e : Error) : Prop
  | lead (none : t.lead var order = none) (early : e.isLate = false)
  | create {x : Tree × Option Tree} {b : Arena} {h : Nat} (lead : t.lead var order = some x)
    (wf : b.WellFormed) (grown : base.Extends b) (inside : h < b.count)
    (coeff : b.expression h = x.1) (failed : LeadingCoefficient.create b var order h = .error e)
  | check {x : Tree × Option Tree} {c : LeadingCoefficient} (lead : t.lead var order = some x)
    (made : LeadingCoefficient.Made base var order x.1 c)
    (failed : c.check d options.singularTolerance options.sampleCount.toNat = .error e)
  | rest {x : Tree × Option Tree} (lead : t.lead var order = some x)
    (unfit : Unfit r base.size x.2 e)
  | side (refused : reason e)

/-- The equation that is assigned to an unknown is solved for it, or there are no equations. -/
theorem Turn.ends (start : base.Extends a) (wf : a.WellFormed) {roots : List Nat}
    {assignment : List Nat} {var e root : Nat} {n : Int} {memo : Substitute.Memo}
    (turn : Turn a roots r assignment var n e root memo b) {rhs : List RightHandSide}
    {given : RightHandSide} (stated : rhs[e]? = some given) {side : Option Tree → Prop}
    {reason : Error → Prop} (supplies : Supplies a given side reason) :
    Ends (equationsOf ⟨r, r.slots, assignment, roots, rhs, d, options⟩ var n.toNat memo) b
      (fun q c => (c.WellFormed ∧ b.Extends c ∧
        Arena.Remembers (Tree.substitute r r.slots) q.2 c) ∧
        ∃ x target rest, Solvable base r d options var n.toNat (a.expression root) x rest ∧
          side target ∧ Solved base r var n.toNat x.1 target rest q.1 c)
      fun e _ => Unsolved base r d options var n.toNat (a.expression root) reason e := by
  have size : b.size = base.size := (start.trans turn.grown).size
  rw [equationsOf]
  simp only [turn.given, turn.equation, stated, Option.getD_some]
  apply Ends.bindState
  apply Ends.liftState
  rw [← turn.expression wf]
  apply (Arena.extractLeading_exact turn.wellFormed turn.lt_count turn.inside n.toNat).mono
  case error =>
    rintro _ _ ⟨none, -, f, rfl⟩
    exact .lead none rfl
  -- from here on there is a leading derivative; each later failure is a constructor of `Unsolved`
  rintro leading c (⟨rfl, none, -⟩ | ⟨l, x, rfl, lead, reads⟩)
  · exact .lead none rfl
  have wf₁ := reads.wellFormed
  have grown₁ := reads.grown
  have later := start.trans (turn.grown.trans grown₁)
  obtain ⟨inside, coeff⟩ : l.coeff < c.count ∧ c.expression l.coeff = x.1 := by
    cases reads.coeff with
    | some known => exact known
  apply Ends.bindState
  apply Ends.liftState
  apply Ends.get
  apply Ends.bindState
  apply Ends.ofExceptState
  apply Ended.intro ?_ fun e failed => .create lead wf₁ later inside coeff failed
  intro coefficient created
  have made : LeadingCoefficient.Made base var n.toNat x.1 coefficient :=
    ⟨c, l.coeff, wf₁, later, inside, coeff, created⟩
  have handle : coefficient.handle = l.coeff :=
    (LeadingCoefficient.create_iff.mp created).2.2.2.2.2
  have divisor : Reads c (some coefficient.handle) (some x.1) := handle ▸ reads.coeff
  apply Ends.bindState
  apply Ends.ofExceptState
  apply Ended.intro ?_ fun e failed => .check lead made failed
  rintro ⟨⟩ checked
  apply (assemble_exact wf₁ (grown₁.size ▸ turn.inside) turn.known divisor reads.rest
    (supplies.grow (turn.grown.trans grown₁)) (turn.remembers.grow turn.wellFormed grown₁)).mono
  · rintro ⟨⟨hs, _⟩, memo'⟩ d' ⟨⟨wf₂, grown₂, remembers'⟩, rfl, stored, target, rest, wanted,
      substituted, equations⟩
    exact ⟨⟨wf₂, grown₁.trans grown₂, remembers'⟩, x, target, rest,
      ⟨lead, ⟨_, made, checked⟩, substituted⟩, wanted, made, divisor.grow wf₁ grown₂, stored,
      equations⟩
  · rintro e _ (unfit | refused)
    · exact .rest lead (size ▸ grown₁.size ▸ unfit)
    · exact .side refused

/-! ## All unknowns -/

/-- For each unknown the tree that is assigned to it can be solved. -/
def AllSolvable (base : Arena) (r : Registry) (d : Domain Float) (options : ReductionOptions)
    (assignment : List Nat) (ts : List Tree) : Prop :=
  ∀ entry ∈ r.orders.zipIdx, ∃ e t x rest, assignment[entry.2]? = some e ∧ ts[e]? = some t ∧
    Solvable base r d options entry.2 entry.1.toNat t x rest

/-- The equations of an unknown come from the tree that is assigned to it, and from the
    right-hand side of that equation. -/
def Derived (base : Arena) (r : Registry) (d : Domain Float) (options : ReductionOptions)
    (assignment : List Nat) (ts : List Tree) (sides : Nat → Option Tree → Prop) (b : Arena)
    (entry : Int × Nat) (q : List Nat × LeadingCoefficient) : Prop :=
  ∃ e t target x rest, assignment[entry.2]? = some e ∧ ts[e]? = some t ∧
    sides e target ∧ Solvable base r d options entry.2 entry.1.toNat t x rest ∧
    Solved base r entry.2 entry.1.toNat x.1 target rest q b

theorem Derived.grow {assignment : List Nat} {ts : List Tree} {sides : Nat → Option Tree → Prop}
    {entry : Int × Nat} {q : List Nat × LeadingCoefficient}
    (derived : Derived base r d options assignment ts sides a entry q) (wf : a.WellFormed)
    (grown : a.Extends b) : Derived base r d options assignment ts sides b entry q := by
  obtain ⟨e, t, target, x, rest, assigned, tree, wanted, solvable, solved⟩ := derived
  exact ⟨e, t, target, x, rest, assigned, tree, wanted, solvable, solved.grow wf grown⟩

theorem allSolvable_of_derived {assignment : List Nat} {ts : List Tree}
    {sides : Nat → Option Tree → Prop} {parts : List (List Nat × LeadingCoefficient)}
    (derived : List.Forall₂ (Derived base r d options assignment ts sides b) r.orders.zipIdx
      parts) : AllSolvable base r d options assignment ts := by
  intro entry listed
  obtain ⟨q, -, e, t, target, x, rest, assigned, tree, -, solvable, -⟩ :=
    exists_mem_of_forall₂_left derived listed
  exact ⟨e, t, x, rest, assigned, tree, solvable⟩

/-- Why equations cannot be split: the right-hand sides are too many or too few, the
    unknowns cannot be assigned, or there are no equations for one of them. -/
inductive Unsplit (base a : Arena) (roots : List Nat) (r : Registry) (rhs : List RightHandSide)
    (d : Domain Float) (options : ReductionOptions) (reason : Error → Prop) (e : Error) : Prop
  | miscounted (count : rhs.length ≠ roots.length) (same : e = .rhsCount rhs.length roots.length)
  | unassigned (failed : a.assignEquations roots r = .error e)
  | unsolved {assignment : List Nat} {var k root : Nat} {n : Int}
    (found : a.assignEquations roots r = .ok assignment) (known : r.orders[var]? = some n)
    (given : assignment[var]? = some k) (equation : roots[k]? = some root)
    (unsolved : Unsolved base r d options var n.toNat (a.expression root) reason e)

end Split

open Split in
/-- **What a split consists of.**  Each unknown has equations that come from the tree that is
    assigned to it, or there is a reason why the equations cannot be split. -/
theorem Arena.split_ends {base a : Arena} (start : base.Extends a) (wf : a.WellFormed)
    {roots : List Nat} {rhs : List RightHandSide} {sides : Nat → Option Tree → Prop}
    {reason : Error → Prop}
    (supplies : ∀ (e : Nat) s, rhs[e]? = some s → Supplies a s (sides e) reason)
    (r : Registry) (domain : Domain Float) (options : ReductionOptions) :
    Ends (Arena.split roots r domain (some rhs) options) a
      (fun s b => rhs.length = roots.length ∧ Passed (fun assignment =>
        Derived base r domain options assignment (roots.map a.expression) sides) a roots r s b)
      fun e _ => Unsplit base a roots r rhs domain options reason e := by
  apply Arena.split_passes wf
    (fun assignment => Derived base r domain options assignment (roots.map a.expression) sides)
    _ (fun derived wf' grown => derived.grow wf' grown) (fun count => .miscounted count rfl)
    (fun _ => .unassigned)
  intro assignment var n e root memo b count turn
  obtain ⟨s, stated⟩ := turn.exists_rhs count
  apply (turn.ends start wf stated (supplies e s stated)).mono
  · rintro q c ⟨kept, x, target, rest, solvable, wanted, solved⟩
    have tree : (roots.map a.expression)[e]? = some (a.expression root) := by
      rw [List.getElem?_map, turn.equation, Option.map_some]
    exact ⟨kept, e, _, target, x, rest, turn.given, tree, wanted, solvable, solved⟩
  · exact fun _ _ => .unsolved turn.found turn.known turn.given turn.equation

open Split in
/-- There is a reason only if the tree cannot be solved. -/
theorem Split.Unsolved.not_solvable {base : Arena} {r : Registry} {d : Domain Float}
    {options : ReductionOptions} {var order : Nat} {t : Tree} {e : Error}
    (unsolved : Unsolved base r d options var order t (fun _ => False) e)
    (normal : t.isNormal = true) (solid : t.solid = true)
    (settled : ∀ x, t.lead var order = some x → ∀ k ∈ x.1.values, base.Settles k)
    {x : Tree × Option Tree} {rest : Option Tree} :
    ¬ Solvable base r d options var order t x rest := by
  intro solvable
  have low := Tree.lowered_of_lead normal solvable.lead
  have constants := settled x solvable.lead
  cases unsolved with
  | lead none => cases none.symm.trans solvable.lead
  | create lead wf grown inside coeff failed =>
    cases lead.symm.trans solvable.lead
    obtain ⟨c, created, -⟩ := solvable.accepts.create constants low wf grown inside coeff
    cases failed.symm.trans created
  | check lead made failed =>
    cases lead.symm.trans solvable.lead
    -- what one coefficient of this tree passes, all of them pass
    obtain ⟨b, h, wf, grown, inside, coeff, created⟩ := made
    obtain ⟨c, created', checked⟩ := solvable.accepts.create constants low wf grown inside coeff
    cases created.symm.trans created'
    cases failed.symm.trans checked
  | rest lead unfit =>
    cases lead.symm.trans solvable.lead
    cases (unfit.none (Tree.hereditary_solid.lead solid lead).2).symm.trans solvable.substituted
  | side refused => exact refused

open Split in
/-- **Splitting is exact.**  It succeeds if the unknowns can be assigned to the
    equations and if these can be solved for them, and it fails otherwise. -/
theorem Arena.split_exact {base a : Arena} (start : base.Extends a) (wf : a.WellFormed)
    {roots : List Nat} (normal : ∀ root ∈ roots, (a.expression root).isNormal = true)
    (solid : ∀ root ∈ roots, (a.expression root).solid = true)
    (settled : ∀ root ∈ roots, ∀ var order x, 0 < order →
      (a.expression root).lead var order = some x → ∀ k ∈ x.1.values, base.Settles k)
    {rhs : List RightHandSide} (count : rhs.length = roots.length) {target : Option Tree}
    (provided : ∀ s ∈ rhs, Provides a s target)
    (r : Registry) (domain : Domain Float) (options : ReductionOptions) :
    Ends (Arena.split roots r domain (some rhs) options) a
      (Passed (fun assignment => Derived base r domain options assignment
        (roots.map a.expression) fun _ t => t = target) a roots r)
      fun _ _ => ∀ assignment, a.assignEquations roots r = .ok assignment →
        ¬ AllSolvable base r domain options assignment (roots.map a.expression) := by
  apply (split_ends start wf (fun e s given => provided s (List.mem_of_getElem? given)) r domain
    options).mono
  · exact fun s b done => done.2
  -- the turn that failed belongs to one unknown, and that unknown is not solvable
  · intro e _ unsplit assignment found all
    cases unsplit with
    | miscounted miscount => exact miscount count
    | unassigned failed => cases failed.symm.trans found
    | @unsolved _ var k root n found' known given equation unsolved =>
      cases found.symm.trans found'
      have listed : (n, var) ∈ r.orders.zipIdx := List.mk_mem_zipIdx_iff_getElem?.mpr known
      obtain ⟨k', t, x, rest, given', tree, solvable⟩ := all (n, var) listed
      cases given.symm.trans given'
      rw [List.getElem?_map, equation] at tree
      cases tree
      have mem := List.mem_of_getElem? equation
      have positive : 0 < n.toNat := by
        have assigned : a.Assigned roots r assignment := assignEquations_ended.of_ok found
        have := assigned.positive n (List.mem_of_getElem? known)
        omega
      exact unsolved.not_solvable (normal root mem) (solid root mem)
        (fun x => settled root mem var n.toNat x positive) solvable

end JetForm
