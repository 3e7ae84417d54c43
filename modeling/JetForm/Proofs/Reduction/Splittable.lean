import JetForm.Proofs.Reduction.Solvable
import JetForm.Proofs.Reduction.Splitting

/-! # When a problem can be split

    The stages between the traced equations and the first-order form decide by the
    trees of the equations alone: whether these have normal forms, which orders
    are found in them, which equation defines which unknown, and whether it can
    be solved for it. -/

namespace JetForm

namespace Tree

/-- The highest order of derivative of each of the first unknowns. -/
def orders (size : Nat) (t : Tree) : List Nat :=
  (List.range size).map fun var => t.diffOrder var

/-- The highest order of derivative of each unknown in some trees. -/
def tracedOrders (size : Nat) (ts : List Tree) : List Nat :=
  ts.foldl (fun orders t => List.zipWith max orders (t.orders size)) (List.replicate size 0)

end Tree

namespace Arena

variable {a b : Arena} {roots roots' : List Nat}

theorem orders_info (wf : a.WellFormed) {h : Nat} (inside : h < a.count) :
    (a.info h).diffOrder = (a.expression h).orders a.size := by
  rw [diffOrder_info wf inside]
  exact List.map_congr_left fun var _ => (Tree.diffOrder_keyed var (a.tree h)).symm

/-- The traced orders are those of the trees. -/
theorem tracedOrders_eq (wf : a.WellFormed) (inside : ∀ r ∈ roots, r < a.count) :
    a.tracedOrders roots = Tree.tracedOrders a.size (roots.map a.expression) := by
  rw [tracedOrders, Tree.tracedOrders, List.foldl_map]
  apply List.foldl_ext
  intro orders root hr
  rw [orders_info wf (inside root hr)]

/-- Which equations contain a derivative depends on nothing but their orders. -/
theorem candidates_congr (rows : roots.map (fun root => (a.info root).diffOrder) =
      roots'.map fun root => (b.info root).diffOrder) (r : Registry) (var : Nat) :
    Assignment.candidates a roots r var = Assignment.candidates b roots' r var := by
  have length : roots.length = roots'.length := by
    simpa using congrArg List.length rows
  unfold Assignment.candidates
  rw [length]
  apply List.filter_congr
  intro e _
  have row : roots[e]?.map (fun root => (a.info root).diffOrder) =
      roots'[e]?.map fun root => (b.info root).diffOrder := by
    rw [← List.getElem?_map, rows, List.getElem?_map]
  -- the rows are aligned, so an equation is in both lists or in neither
  cases left : roots[e]? with
  | none =>
    cases right : roots'[e]? with
    | none => rfl
    | some root' =>
      rw [left, right] at row
      cases row
  | some root =>
    cases right : roots'[e]? with
    | none =>
      rw [left, right] at row
      cases row
    | some root' =>
      rw [left, right] at row
      have same : (a.info root).diffOrder = (b.info root').diffOrder := Option.some.inj row
      cases r.orders[var]? with
      | none => rfl
      | some n =>
        dsimp only
        rw [same]

/-- An assignment depends on nothing but the orders in the equations. -/
theorem assignEquations_congr (size : a.size = b.size) (inside : ∀ r ∈ roots, r < a.count)
    (inside' : ∀ r ∈ roots', r < b.count)
    (rows : roots.map (fun root => (a.info root).diffOrder) =
      roots'.map fun root => (b.info root).diffOrder) (r : Registry) :
    a.assignEquations roots r = b.assignEquations roots' r := by
  have length : roots.length = roots'.length := by
    simpa using congrArg List.length rows
  have candidates : Assignment.candidates a roots r = Assignment.candidates b roots' r :=
    funext (candidates_congr rows r)
  have require : a.requireNodes roots = b.requireNodes roots' :=
    (requireNodes_eq_ok.mpr inside).trans (requireNodes_eq_ok.mpr inside').symm
  unfold assignEquations Assignment.check
  rw [length, require, size, candidates]

/-- In some arena the equations with the given trees are assigned to the
    unknowns. -/
def Assigns (size : Nat) (ts : List Tree) (r : Registry) (assignment : List Nat) : Prop :=
  ∃ (a : Arena) (roots : List Nat), a.WellFormed ∧ a.size = size ∧ (∀ root ∈ roots, root < a.count) ∧
    roots.map (fun root => (a.expression root).orders size) = ts.map (Tree.orders size) ∧
    a.assignEquations roots r = .ok assignment

/-- Then they are in every arena. -/
theorem Assigns.assignEquations {ts : List Tree} {r : Registry} {assignment : List Nat}
    (assigns : Assigns b.size ts r assignment) (wf : b.WellFormed)
    (inside : ∀ root ∈ roots, root < b.count)
    (trees : roots.map (fun root => (b.expression root).orders b.size) =
      ts.map (Tree.orders b.size)) : b.assignEquations roots r = .ok assignment := by
  obtain ⟨a, given, wf', size, inside', rows, assigned⟩ := assigns
  rw [← assigned]
  refine (assignEquations_congr size inside' inside ?_ r).symm
  have left : given.map (fun root => (a.info root).diffOrder) =
      given.map fun root => (a.expression root).orders b.size :=
    List.map_congr_left fun root hr => size ▸ orders_info wf' (inside' root hr)
  have right : roots.map (fun root => (b.info root).diffOrder) =
      roots.map fun root => (b.expression root).orders b.size :=
    List.map_congr_left fun root hr => orders_info wf (inside root hr)
  rw [left, right, rows, trees]

/-- There is one assignment. -/
theorem Assigns.unique {size : Nat} {ts : List Tree} {r : Registry} {assignment assignment' : List Nat}
    (assigns : Assigns size ts r assignment) (assigns' : Assigns size ts r assignment') :
    assignment = assignment' := by
  obtain ⟨b, roots, wf, rfl, inside, rows, assigned⟩ := assigns'
  exact Except.ok.inj ((assigns.assignEquations wf inside rows).symm.trans assigned)

end Arena

/-- The trees of the equations. -/
def TracedProblem.trees (w : Workspace) (p : TracedProblem) : List Tree :=
  p.equations.map fun e => (w.arena p.arena).expression e.handle

namespace FirstOrder

/-- The trees of a problem have normal forms, these have the declared orders, and
    the unknowns can be assigned to equations that can be solved for them. -/
structure Splittable (base : Arena) (declared : Option (List Number)) (options : ReductionOptions)
    (names : List String) (domain : Domain Float) (ts ns : List Tree) (r : Registry)
    (assignment : List Nat) : Prop where
  normal : List.Forall₂ (fun t n => t.normalForm = some n ∧ n.solid = true) ts ns
  orders : checkOrders declared (Tree.tracedOrders base.size ns) = .ok ()
  registry : Registry.create ((Tree.tracedOrders base.size ns).map Int.ofNat) names = .ok r
  assigned : Arena.Assigns base.size ns r assignment
  solvable : Split.AllSolvable base r domain options assignment ns

/-- Trees have one normal form each. -/
theorem normalForms_unique {ts ns ns' : List Tree}
    (forms : List.Forall₂ (fun t n => t.normalForm = some n ∧ n.solid = true) ts ns)
    (forms' : List.Forall₂ (fun t n => t.normalForm = some n ∧ n.solid = true) ts ns') :
    ns = ns' := by
  apply List.right_unique_forall₂' ?_ forms forms'
  exact fun t n n' left right => Option.some.inj (left.1.symm.trans right.1)

/-- Trees can be split in one way. -/
theorem Splittable.unique {base : Arena} {declared : Option (List Number)}
    {options : ReductionOptions} {names : List String} {domain : Domain Float} {ts ns ns' : List Tree}
    {r r' : Registry} {assignment assignment' : List Nat}
    (splittable : Splittable base declared options names domain ts ns r assignment)
    (splittable' : Splittable base declared options names domain ts ns' r' assignment') :
    ns = ns' ∧ r = r' ∧ assignment = assignment' := by
  obtain rfl : ns = ns' := normalForms_unique splittable.normal splittable'.normal
  obtain rfl : r = r' :=
    Except.ok.inj (splittable.registry.symm.trans splittable'.registry)
  exact ⟨rfl, rfl, splittable.assigned.unique splittable'.assigned⟩

/-- Whenever it is read, the operand is the tree on the right of an equation; none
    is zero. -/
def Target (w : Workspace) (i : Nat) (v : Operand) (target : Option Tree) : Prop :=
  ∀ w', w.Grows w' → Ends (rightHandSide i v) w'
    (fun s w'' => w'' = w' ∧ Split.Provides (w'.arena i) s target) fun _ _ => False

end FirstOrder

/-- The equations of a system come from trees in normal form. -/
structure SplitSystem.From (base : Arena) (options : ReductionOptions) (domain : Domain Float)
    (ns : List Tree) (target : Option Tree) (s : SplitSystem) (a : Arena) : Prop where
  slots : s.slots = s.registry.slots
  parts : ∃ parts, s.equations = (parts.map Prod.fst).flatten ∧
    s.coefficients = parts.map Prod.snd ∧
    List.Forall₂ (Split.Derived base s.registry domain options s.assignment ns
      (fun _ t => t = target) a) s.registry.orders.zipIdx parts

/-- The equations of a system come from trees that can be split. -/
def SplitSystem.Splits (base : Arena) (posed : Posed) (names : List String) (domain : Domain Float)
    (ts : List Tree) (target : Option Tree) (s : SplitSystem) (a : Arena) : Prop :=
  ∃ ns, FirstOrder.Splittable base posed.orders posed.options names domain ts ns s.registry
      s.assignment ∧
    s.From base posed.options domain ns target a

namespace FirstOrder

/-- The common right-hand side of some equations. -/
theorem rightHandSides_exact {w w' : Workspace} {i : Nat} {v : Operand} {target : Option Tree}
    (reads : Target w i v target) (grown : w.Grows w') (count : Nat) :
    Ends (rightHandSides i count (.common v)) w' (fun sides w'' => w'' = w' ∧
      sides.length = count ∧ ∀ s ∈ sides, Split.Provides (w'.arena i) s target)
      fun _ _ => False := by
  have pass : Ends (rightHandSides i count (.common v)) w' (fun sides w'' => w'' = w' ∧
      sides.length = (List.replicate count v).length ∧
      ∀ s ∈ sides, Split.Provides (w'.arena i) s target) fun _ _ => False := by
    apply Ends.mapM (fun before (sides : List RightHandSide) w'' => w'' = w' ∧
      sides.length = before.length ∧ ∀ s ∈ sides, Split.Provides (w'.arena i) s target)
    · exact ⟨rfl, rfl, by simp⟩
    · rintro before v' after sides _ eq ⟨rfl, length, known⟩
      obtain rfl : v' = v := List.eq_of_mem_replicate (n := count) (eq ▸ by simp)
      apply (reads _ grown).weaken
      rintro s _ ⟨rfl, provides⟩
      refine ⟨rfl, by simp [length], ?_⟩
      intro t ht
      rcases List.mem_append.mp ht with ht | ht
      · exact known t ht
      · exact List.mem_singleton.mp ht ▸ provides
  rwa [List.length_replicate] at pass

section

variable {w : Workspace} {p : TracedProblem} {base a b : Arena} {roots : List Nat}

theorem handles_trees (w : Workspace) (p : TracedProblem) :
    (p.equations.map Traced.handle).map (w.arena p.arena).expression = p.trees w := by
  rw [TracedProblem.trees, List.map_map]
  rfl

/-- The roots are the normal forms of the trees. -/
theorem Normalized.trees (normalized : Normalized w p roots a) :
    List.Forall₂ (fun t n => t.normalForm = some n ∧ n.solid = true) (p.trees w)
      (roots.map a.expression) := by
  rw [← handles_trees, List.forall₂_map_left_iff, List.forall₂_map_right_iff]
  exact normalized.forms.imp fun h root known => ⟨known.normalForm, known.solid⟩

/-- The orders are found in the trees. -/
theorem Normalized.orders (normalized : Normalized w p roots a)
    (start : base.Extends (w.arena p.arena)) :
    a.tracedOrders roots = Tree.tracedOrders base.size (roots.map a.expression) := by
  rw [Arena.tracedOrders_eq normalized.wellFormed normalized.inside,
    (start.trans normalized.grown).size]

variable {declared : Option (List Number)} {options : ReductionOptions} {names : List String}
  {domain : Domain Float} {ns : List Tree} {r : Registry} {assignment : List Nat}

/-- Equations that are not staged cannot be split. -/
theorem Unstaged.not_splittable {e : Error} (unstaged : Unstaged declared w p e)
    (start : base.Extends (w.arena p.arena)) :
    ¬ Splittable base declared options p.names domain (p.trees w) ns r assignment := by
  intro splittable
  cases unstaged with
  | @stuck h hh stuck =>
    obtain ⟨i, listed⟩ := List.getElem?_of_mem hh
    have tree : (p.trees w)[i]? = some ((w.arena p.arena).expression h) := by
      rw [← handles_trees, List.getElem?_map, listed, Option.map_some]
    obtain ⟨n, -, normal, solid⟩ := exists_of_forall₂_left splittable.normal tree
    rw [stuck.unbuildable n normal] at solid
    cases solid
  | orders normalized failed =>
    obtain rfl := normalForms_unique splittable.normal normalized.trees
    rw [normalized.orders start] at failed
    cases failed.symm.trans splittable.orders
  | registry normalized failed =>
    obtain rfl := normalForms_unique splittable.normal normalized.trees
    rw [normalized.orders start] at failed
    cases failed.symm.trans splittable.registry

/-- Staged equations are assigned as their trees are. -/
theorem Staged.assigns_iff (staged : Staged declared w p roots r a) (size : base.size = a.size) :
    Arena.Assigns base.size (roots.map a.expression) r assignment ↔
      a.assignEquations roots r = .ok assignment := by
  have rows : roots.map (fun root => (a.expression root).orders a.size) =
      (roots.map a.expression).map (Tree.orders a.size) := by
    rw [List.map_map]
    rfl
  rw [size]
  constructor
  · exact fun assigns => assigns.assignEquations staged.wellFormed staged.inside rows
  · exact fun assigned => ⟨a, roots, staged.wellFormed, rfl, staged.inside, rows, assigned⟩

/-- Staged equations that are assigned and solved can be split. -/
theorem Staged.splittable (staged : Staged declared w p roots r a)
    (start : base.Extends (w.arena p.arena)) (assigned : a.assignEquations roots r = .ok assignment)
    (solvable : Split.AllSolvable base r domain options assignment (roots.map a.expression)) :
    Splittable base declared options p.names domain (p.trees w) (roots.map a.expression) r
      assignment where
  normal := staged.trees
  orders := staged.orders start ▸ staged.checked
  registry := staged.orders start ▸ staged.created
  assigned := (staged.assigns_iff (start.trans staged.grown).size.symm).mpr assigned
  solvable := solvable

end

/-- **Splitting the equations of a problem is exact.**  It fails only if they
    cannot be split. -/
theorem splitEquations_exact {w : Workspace} (wf : w.WellFormed) {p : TracedProblem}
    (stored : p.Stored w) {base : Arena} (start : base.Extends (w.arena p.arena))
    {ts : List Tree} (trees : p.trees w = ts)
    (settled : ∀ t ∈ ts, ∀ n, t.normalForm = some n → ∀ var order x, 0 < order →
      n.lead var order = some x → ∀ k ∈ x.1.values, base.Settles k)
    (domain : Domain Float) {posed : Posed} {v : Operand} (common : posed.rhs = .common v)
    {target : Option Tree} (reads : Target w p.arena v target) :
    Ends (splitEquations p domain posed) w
      (fun s w' => w.Grows w' ∧ s.Splits base posed p.names domain ts target (w'.arena p.arena))
      fun _ _ => ∀ ns r assignment,
        ¬ Splittable base posed.orders posed.options p.names domain ts ns r assignment := by
  subst trees
  apply splitEquations_passes wf stored domain
    (fun sides a => sides.length = p.equations.length ∧ ∀ s ∈ sides, Split.Provides a s target)
    (fun s b => s.Splits base posed p.names domain (p.trees w) target b)
    fun _ unstaged ns r assignment => unstaged.not_splittable start
  · intro w' grown
    rw [common]
    apply (rightHandSides_exact reads grown p.equations.length).mono ?_ fun _ _ => False.elim
    rintro sides _ ⟨rfl, known⟩
    exact ⟨.refl grown.after, known⟩
  · rintro roots r a sides staged ⟨length, provided⟩
    have count : sides.length = roots.length := by
      rw [length, ← staged.forms.length_eq, List.length_map]
    have known : ∀ root ∈ roots, ∀ var order x, 0 < order →
        (a.expression root).lead var order = some x → ∀ k ∈ x.1.values, base.Settles k := by
      intro root hr
      obtain ⟨t, given, form, -⟩ :=
        exists_mem_of_forall₂_right staged.trees (List.mem_map_of_mem (f := a.expression) hr)
      exact settled t given _ form
    apply (Arena.split_exact (start.trans staged.grown) staged.wellFormed (staged.isNormal stored)
      staged.solid known count provided r domain posed.options).mono
    · rintro s b ⟨rfl, slots, assigned, wf', grown, parts, equations, coefficients, derived⟩
      exact ⟨⟨wf', grown⟩, roots.map a.expression,
        staged.splittable start assigned (Split.allSolvable_of_derived derived), slots, parts,
        equations, coefficients, derived⟩
    -- a split the specification allows would have been found by the assignment of this run
    · intro _ _ refused ns r' assignment splittable
      obtain rfl := normalForms_unique splittable.normal staged.trees
      cases (staged.orders start ▸ staged.created).symm.trans splittable.registry
      have assigned := (staged.assigns_iff (start.trans staged.grown).size.symm).mp
        splittable.assigned
      exact refused assignment assigned splittable.solvable

/-- So a problem has a first-order form if its trees can be split. -/
theorem exists_split_iff {x : Tracing SplitSystem} {w : Workspace} {i : Nat} {base : Arena}
    {posed : Posed} {names : List String} {domain : Domain Float} {ts : List Tree}
    {target : Option Tree}
    (exact : Ends x w
      (fun s w' => w.Grows w' ∧ s.Splits base posed names domain ts target (w'.arena i))
      fun _ _ => ∀ ns r assignment,
        ¬ Splittable base posed.orders posed.options names domain ts ns r assignment) :
    (∃ s w', x w = .ok s w') ↔ ∃ ns r assignment,
      Splittable base posed.orders posed.options names domain ts ns r assignment := by
  apply Ends.exists_ok_iff
  apply exact.mono
  · rintro s w' ⟨-, ns, splittable, -⟩
    exact ⟨ns, s.registry, s.assignment, splittable⟩
  · rintro _ _ fails ⟨ns, r, assignment, splittable⟩
    exact fails ns r assignment splittable

end FirstOrder

end JetForm
