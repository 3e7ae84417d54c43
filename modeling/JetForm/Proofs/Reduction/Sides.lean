import JetForm.Proofs.Reduction.Splittable

/-! # An expression on either side of the equations

    An expression that reads nothing but the time can stand on the right of all
    equations, or it can be subtracted on the left.  Both ways the equations can
    be split at the same time, and they give the same system: the subtraction
    passes through the normal form, stays in the rest of each equation, and comes
    back with another sign. -/

namespace JetForm

namespace Tree

variable {R : Tree}

/-! ## Trees without unknowns -/

/-- Rebuilding changes nothing but unknowns and derivatives. -/
theorem rebuild_of_lowered {leaf : Nat → Option Tree} {diff : Tree → Nat → Option Tree → Option Tree}
    (low : R.lowered 0 = true) : R.rebuild leaf diff = some R := by
  induction R with
  | leaf | derivative => cases low
  | independent | constant | slot => rfl
  | unary op c ih | valueTree op v c ih | treeValue op c v ih =>
    rw [rebuild, ih low]
    rfl
  | treeTree op l r ihl ihr =>
    obtain ⟨left, right⟩ := Bool.and_eq_true_iff.mp low
    rw [rebuild, ihl left, ihr right]
    rfl

theorem diffOrder_of_lowered (low : R.lowered 0 = true) (var : Nat) : R.diffOrder var = 0 := by
  induction R with
  | leaf | derivative => cases low
  | independent | constant | slot => rfl
  | unary op c ih | valueTree op v c ih | treeValue op c v ih => exact ih low
  | treeTree op l r ihl ihr =>
    obtain ⟨left, right⟩ := Bool.and_eq_true_iff.mp low
    simp [diffOrder, ihl left, ihr right]

/-! ## A tree less another one -/

/-- The difference of two trees. -/
def less (t R : Tree) : Tree :=
  .treeTree .minus t R

theorem normalForm_less (low : R.lowered 0 = true) (t : Tree) :
    (t.less R).normalForm = t.normalForm.map (·.less R) := by
  have same : R.normalForm = some R := rebuild_of_lowered low
  show t.normalForm.bind (fun l => R.normalForm.map (Tree.treeTree .minus l)) = _
  rw [same]
  cases t.normalForm <;> rfl

theorem solid_less (low : R.lowered 0 = true) (t : Tree) : (t.less R).solid = t.solid := by
  simp [less, solid, solid_of_lowered low]

theorem orders_less (low : R.lowered 0 = true) (size : Nat) (t : Tree) :
    (t.less R).orders size = t.orders size := by
  simp [orders, less, diffOrder, diffOrder_of_lowered low]

theorem tracedOrders_less (low : R.lowered 0 = true) (size : Nat) (ts : List Tree) :
    tracedOrders size (ts.map (·.less R)) = tracedOrders size ts := by
  rw [tracedOrders, tracedOrders, List.foldl_map]
  simp only [orders_less low]

theorem lead_less (low : R.lowered 0 = true) {var order : Nat} (positive : 0 < order) (t : Tree) :
    (t.less R).lead var order =
      (t.lead var order).map fun x => (x.1, differenceOf x.2 (some R)) :=
  lead_minus positive (diffOrder_of_lowered low var) t

theorem substituteRest_less (low : R.lowered 0 = true) (r : Registry) (rest : Option Tree) :
    substituteRest r (differenceOf rest (some R)) =
      (substituteRest r rest).map (differenceOf · (some R)) := by
  have same : R.substitute r r.slots = some R := rebuild_of_lowered low
  cases rest with
  | none =>
    show some <$> (R.substitute r r.slots).map (Tree.unary .uminus) = _
    rw [same]
    rfl
  | some q =>
    show some <$> (q.substitute r r.slots).bind
      (fun l => (R.substitute r r.slots).map (Tree.treeTree .minus l)) = _
    rw [same, substituteRest]
    cases q.substitute r r.slots <;> rfl

end Tree

/-! ## What can be split -/

variable {R : Tree} {base : Arena} {r : Registry} {d : Domain Float} {options : ReductionOptions}

namespace Split

theorem solvable_less (low : R.lowered 0 = true) {var order : Nat} (positive : 0 < order) {t : Tree}
    {x : Tree × Option Tree} {rest : Option Tree} :
    Solvable base r d options var order (t.less R) x rest ↔
      ∃ y q, x = (y.1, Tree.differenceOf y.2 (some R)) ∧ rest = Tree.differenceOf q (some R) ∧
        Solvable base r d options var order t y q := by
  constructor
  · rintro ⟨lead, accepts, substituted⟩
    rw [Tree.lead_less low positive] at lead
    obtain ⟨y, found, rfl⟩ := Option.map_eq_some_iff.mp lead
    rw [Tree.substituteRest_less low] at substituted
    obtain ⟨q, replaced, rfl⟩ := Option.map_eq_some_iff.mp substituted
    exact ⟨y, q, rfl, rfl, found, accepts, replaced⟩
  · rintro ⟨y, q, rfl, rfl, lead, accepts, substituted⟩
    refine ⟨?_, accepts, ?_⟩
    · rw [Tree.lead_less low positive, lead, Option.map_some]
    · rw [Tree.substituteRest_less low, substituted, Option.map_some]

theorem allSolvable_less (low : R.lowered 0 = true) (positive : ∀ n ∈ r.orders, 0 < n)
    {assignment : List Nat} {ns : List Tree} :
    AllSolvable base r d options assignment (ns.map (·.less R)) ↔
      AllSolvable base r d options assignment ns := by
  have above : ∀ entry ∈ r.orders.zipIdx, 0 < entry.1.toNat := by
    intro entry listed
    have := positive entry.1 (List.mem_of_getElem? (List.mk_mem_zipIdx_iff_getElem?.mp listed))
    omega
  constructor
  · intro all entry listed
    obtain ⟨e, t, x, rest, assigned, tree, solvable⟩ := all entry listed
    rw [List.getElem?_map] at tree
    obtain ⟨n, given, rfl⟩ := Option.map_eq_some_iff.mp tree
    obtain ⟨y, q, -, -, solvable'⟩ := (solvable_less low (above entry listed)).mp solvable
    exact ⟨e, n, y, q, assigned, given, solvable'⟩
  · intro all entry listed
    obtain ⟨e, n, y, q, assigned, given, solvable⟩ := all entry listed
    refine ⟨e, n.less R, _, _, assigned, ?_,
      (solvable_less low (above entry listed)).mpr ⟨y, q, rfl, rfl, solvable⟩⟩
    rw [List.getElem?_map, given, Option.map_some]

end Split

theorem Arena.Assigns.positive {size : Nat} {ts : List Tree} {assignment : List Nat}
    (assigns : Arena.Assigns size ts r assignment) : ∀ n ∈ r.orders, 0 < n := by
  obtain ⟨a, roots, -, -, -, -, assigned⟩ := assigns
  exact (Arena.assignEquations_ended.of_ok assigned).positive

theorem Arena.assigns_less (low : R.lowered 0 = true) {size : Nat} {ns : List Tree}
    {assignment : List Nat} :
    Arena.Assigns size (ns.map (·.less R)) r assignment ↔ Arena.Assigns size ns r assignment := by
  have same : (ns.map (·.less R)).map (Tree.orders size) = ns.map (Tree.orders size) := by
    rw [List.map_map]
    exact List.map_congr_left fun n _ => Tree.orders_less low size n
  unfold Assigns
  rw [same]

namespace FirstOrder

variable {declared : Option (List Number)} {names : List String} {ts : List Tree}
  {assignment : List Nat}

/-- Normal forms of the differences are the differences of normal forms. -/
theorem normalForms_less (low : R.lowered 0 = true) {ns : List Tree} :
    List.Forall₂ (fun t n => t.normalForm = some n ∧ n.solid = true) (ts.map (·.less R)) ns ↔
      ∃ ms, ns = ms.map (·.less R) ∧
        List.Forall₂ (fun t n => t.normalForm = some n ∧ n.solid = true) ts ms := by
  rw [List.forall₂_map_left_iff]
  constructor
  · intro forms
    induction forms with
    | nil => exact ⟨[], rfl, .nil⟩
    | @cons t n ts ns known _ ih =>
      obtain ⟨ms, rfl, rest⟩ := ih
      obtain ⟨form, solid⟩ := known
      rw [Tree.normalForm_less low] at form
      obtain ⟨m, found, rfl⟩ := Option.map_eq_some_iff.mp form
      rw [Tree.solid_less low] at solid
      exact ⟨m :: ms, rfl, .cons ⟨found, solid⟩ rest⟩
  · rintro ⟨ms, rfl, forms⟩
    rw [List.forall₂_map_right_iff]
    apply forms.imp
    rintro t n ⟨form, solid⟩
    rw [Tree.normalForm_less low, form, Option.map_some, Tree.solid_less low]
    exact ⟨rfl, solid⟩

/-- **What can be split with an expression subtracted can be split without.** -/
theorem splittable_less (low : R.lowered 0 = true) {ns : List Tree} :
    Splittable base declared options names d (ts.map (·.less R)) ns r assignment ↔
      ∃ ms, ns = ms.map (·.less R) ∧ Splittable base declared options names d ts ms r assignment := by
  constructor
  · intro splittable
    obtain ⟨ms, rfl, normal⟩ := (normalForms_less low).mp splittable.normal
    have orders := Tree.tracedOrders_less low base.size ms
    refine ⟨ms, rfl, normal, orders ▸ splittable.orders, orders ▸ splittable.registry,
      (Arena.assigns_less low).mp splittable.assigned, ?_⟩
    exact (Split.allSolvable_less low splittable.assigned.positive).mp splittable.solvable
  · rintro ⟨ms, rfl, splittable⟩
    have orders := Tree.tracedOrders_less low base.size ms
    refine ⟨(normalForms_less low).mpr ⟨ms, rfl, splittable.normal⟩,
      orders.symm ▸ splittable.orders, orders.symm ▸ splittable.registry,
      (Arena.assigns_less low).mpr splittable.assigned, ?_⟩
    exact (Split.allSolvable_less low splittable.assigned.positive).mpr splittable.solvable

end FirstOrder

/-! ## What it is split into -/

namespace Tree

/-- Both trees have the same value wherever signs and differences are those of a
    group, and the first can be lowered if the second can. -/
structure Agrees (s t : Tree) : Prop where
  lowered : ∀ size, t.lowered size = true → s.lowered size = true
  denote : ∀ {K : Type} [AddGroup K] (m : Meaning K), (∀ x, m.unary .uminus x = -x) →
    (∀ x y, m.binary .minus x y = x - y) → s.denote m = t.denote m

theorem Agrees.refl (t : Tree) : t.Agrees t :=
  ⟨fun _ => id, fun _ _ _ => rfl⟩

/-- The negative of a difference is the difference the other way around. -/
theorem remainder_agrees (R : Tree) (rest : Option Tree) :
    (remainder (some R) rest).Agrees (remainder none (differenceOf rest (some R))) := by
  cases rest with
  | none =>
    refine ⟨fun _ => id, ?_⟩
    intro K _ m sign _
    show R.denote m = m.unary .uminus (m.unary .uminus (R.denote m))
    rw [sign, sign, neg_neg]
  | some q =>
    constructor
    · intro size low
      obtain ⟨left, right⟩ := Bool.and_eq_true_iff.mp low
      exact Bool.and_eq_true_iff.mpr ⟨right, left⟩
    · intro K _ m sign difference
      show m.binary .minus (R.denote m) (q.denote m) =
        m.unary .uminus (m.binary .minus (q.denote m) (R.denote m))
      rw [sign, difference, difference, neg_sub]

theorem top_agrees (unit : Bool) (coeff R : Tree) (rest : Option Tree) :
    (top unit coeff (some R) rest).Agrees (top unit coeff none (differenceOf rest (some R))) := by
  have agrees := remainder_agrees R rest
  unfold top
  split
  next => exact agrees
  next =>
    constructor
    · intro size low
      obtain ⟨above, below⟩ := Bool.and_eq_true_iff.mp low
      exact Bool.and_eq_true_iff.mpr ⟨agrees.lowered size above, below⟩
    · intro K _ m sign difference
      exact congrArg (m.binary .rdivide · _) (agrees.denote m sign difference)

end Tree

variable {a b : Arena} {ns : List Tree} {assignment : List Nat}

/-- Lists that are related to one list are related to each other. -/
theorem forall₂_join {α β γ : Type} {R : α → β → Prop} {S : α → γ → Prop} {l : List α} {xs : List β}
    {ys : List γ} (left : List.Forall₂ R l xs) (right : List.Forall₂ S l ys) :
    List.Forall₂ (fun x y => ∃ i ∈ l, R i x ∧ S i y) xs ys := by
  induction left generalizing ys with
  | nil =>
    cases right
    exact .nil
  | @cons i x l xs here _ ih =>
    cases right with
    | cons here' rest =>
      refine .cons ⟨i, List.mem_cons_self, here, here'⟩ ((ih rest).imp ?_)
      rintro x y ⟨j, hj, known⟩
      exact ⟨j, List.mem_cons_of_mem i hj, known⟩

/-- The coefficients are alike, and they have been made of one expression. -/
structure LeadingCoefficient.Agrees (a b : Arena) (c c' : LeadingCoefficient) : Prop where
  alike : c.Alike c'
  expression : a.expression c.handle = b.expression c'.handle

/-- The equations that define an unknown agree on both sides. -/
theorem Split.Derived.agrees (low : R.lowered 0 = true)
    (settled : ∀ n ∈ ns, ∀ var order x, 0 < order → n.lead var order = some x →
      ∀ k ∈ x.1.values, base.Settles k)
    {entry : Int × Nat} (positive : 0 < entry.1.toNat) {q q' : List Nat × LeadingCoefficient}
    (derived : Derived base r d options assignment ns (fun _ t => t = some R) a entry q)
    (derived' : Derived base r d options assignment (ns.map (·.less R)) (fun _ t => t = none) b
      entry q') :
    List.Forall₂ (fun h g => (a.expression h).Agrees (b.expression g)) q.1 q'.1 ∧
      LeadingCoefficient.Agrees a b q.2 q'.2 := by
  obtain ⟨e, t, _, x, rest, assigned, tree, rfl, solvable, solved⟩ := derived
  obtain ⟨e', t', _, x', rest', assigned', tree', rfl, solvable', solved'⟩ := derived'
  obtain rfl := Option.some.inj (assigned.symm.trans assigned')
  rw [List.getElem?_map, tree] at tree'
  cases tree'
  obtain ⟨y, p, rfl, rfl, other⟩ := (solvable_less low positive).mp solvable'
  obtain rfl := Option.some.inj (solvable.lead.symm.trans other.lead)
  obtain rfl := Option.some.inj (solvable.substituted.symm.trans other.substituted)
  have alike := solved.made.alike solved'.made
    (settled t (List.mem_of_getElem? tree) _ _ x positive solvable.lead)
  refine ⟨?_, alike, ?_⟩
  · have trees : List.Forall₂ Tree.Agrees (q.1.map a.expression) (q'.1.map b.expression) := by
      rw [solved.equations, solved'.equations, ← alike.constant]
      exact List.rel_append (List.forall₂_same.mpr fun t _ => .refl t)
        (.cons (Tree.top_agrees _ x.1 R rest) .nil)
    rwa [List.forall₂_map_left_iff, List.forall₂_map_right_iff] at trees
  · exact solved.coefficient.2.trans solved'.coefficient.2.symm

/-- **The systems agree**: they have equations of the same value and coefficients
    that are alike. -/
theorem SplitSystem.From.agrees (low : R.lowered 0 = true)
    (settled : ∀ n ∈ ns, ∀ var order x, 0 < order → n.lead var order = some x →
      ∀ k ∈ x.1.values, base.Settles k)
    {s s' : SplitSystem} (positive : ∀ n ∈ s.registry.orders, 0 < n)
    (registry : s.registry = s'.registry) (assignment : s.assignment = s'.assignment)
    (here : s.From base options d ns (some R) a)
    (there : s'.From base options d (ns.map (·.less R)) none b) :
    List.Forall₂ (fun h g => (a.expression h).Agrees (b.expression g)) s.equations s'.equations ∧
      List.Forall₂ (LeadingCoefficient.Agrees a b) s.coefficients s'.coefficients := by
  obtain ⟨-, parts, equations, coefficients, derived⟩ := here
  obtain ⟨-, parts', equations', coefficients', derived'⟩ := there
  rw [← registry, ← assignment] at derived'
  have both : List.Forall₂ (fun q q' =>
      List.Forall₂ (fun h g => (a.expression h).Agrees (b.expression g)) q.1 q'.1 ∧
        LeadingCoefficient.Agrees a b q.2 q'.2) parts parts' := by
    apply (forall₂_join derived derived').imp
    rintro q q' ⟨entry, listed, known, known'⟩
    have := positive entry.1 (List.mem_of_getElem? (List.mk_mem_zipIdx_iff_getElem?.mp listed))
    exact known.agrees low settled (by omega) known'
  constructor
  · rw [equations, equations']
    apply List.rel_flatten
    rw [List.forall₂_map_left_iff, List.forall₂_map_right_iff]
    exact both.imp fun q q' known => known.1
  · rw [coefficients, coefficients', List.forall₂_map_left_iff, List.forall₂_map_right_iff]
    exact both.imp fun q q' known => known.2

/-- The equations of a system are stored. -/
theorem SplitSystem.From.inside {target : Option Tree} {s : SplitSystem}
    (here : s.From base options d ns target a) : ∀ h ∈ s.equations, h < a.count := by
  obtain ⟨-, parts, equations, -, derived⟩ := here
  intro h hh
  rw [equations] at hh
  obtain ⟨hs, listed, hh⟩ := List.mem_flatten.mp hh
  obtain ⟨q, hq, rfl⟩ := List.mem_map.mp listed
  obtain ⟨entry, -, e, t, target, x, rest, -, -, -, -, solved⟩ :=
    exists_mem_of_forall₂_right derived hq
  exact solved.inside h hh

end JetForm
