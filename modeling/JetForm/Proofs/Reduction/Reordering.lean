import JetForm.Proofs.Reduction.Equations
import JetForm.Proofs.Reduction.FirstOrder
import JetForm.Proofs.Reordering

/-! # Equations in another order

    Unknowns are matched to equations, and a matching may well depend on the order
    in which the equations are tried.  For the first-order form this makes no
    difference: an equation that has been solved for one unknown contains the
    highest derivative of no other.  For if it did, the derivative would be left
    in the rest, where no state entry can be put for it.

    So a system that can be split has one assignment only.  In another order its
    equations are assigned to the same unknowns, and everything that is built
    after that is built in the order of the unknowns. -/

namespace JetForm

/-! ## An equation that has been solved -/

namespace Split

/-- The tree has a coefficient, and a rest in which state entries can be put for
    the derivatives. -/
def Isolates (r : Registry) (var order : Nat) (t : Tree) : Prop :=
  ∃ x rest, t.lead var order = some x ∧ Tree.substituteRest r x.2 = some rest

/-- The highest derivatives of other unknowns do not occur. -/
theorem Isolates.diffOrder_lt {r : Registry} {var order : Nat} {t : Tree}
    (isolates : Isolates r var order t) {j : Nat} (other : j ≠ var) {n : Int}
    (known : r.orders[j]? = some n) (positive : 0 < n) : (t.diffOrder j : Int) < n := by
  obtain ⟨⟨coeff, rest⟩, rest', lead, substituted⟩ := isolates
  have bound : t.diffOrder j ≤ Tree.partOrder j rest :=
    (Tree.separates_of_lead lead).diffOrder_le other
  cases rest with
  | none =>
    have zero : t.diffOrder j ≤ 0 := bound
    omega
  | some rest =>
    obtain ⟨rest', substituted, -⟩ := Option.map_eq_some_iff.mp substituted
    have below := Tree.diffOrder_lt_of_substitute substituted known positive
    have bound : t.diffOrder j ≤ rest.diffOrder j := bound
    omega

/-- The derivatives of all entries but the last are the entries that follow. -/
def Chained (r : Registry) (var order : Nat) (hs : List Nat) (b : Arena) : Prop :=
  hs.length = order ∧ ∀ j, j + 1 < order → ∃ h, hs[j]? = some h ∧ IsEntry r var (j + 1) b h

/-- The equation that is assigned to an unknown has been solved for it. -/
def Settled (a : Arena) (roots : List Nat) (r : Registry) (assignment : List Nat)
    (entry : Int × Nat) : Prop :=
  ∃ e root, assignment[entry.2]? = some e ∧ roots[e]? = some root ∧
    Isolates r entry.2 entry.1.toNat (a.expression root)

end Split

/-- The equations of a system are those of its unknowns, one after the other. -/
structure SplitSystem.Assembled (s : SplitSystem) (r : Registry) (b : Arena) : Prop where
  slots : s.slots = r.slots
  blocks : ∃ parts : List (List Nat × LeadingCoefficient),
    s.equations = (parts.map Prod.fst).flatten ∧
      List.Forall₂ (fun (entry : Int × Nat) part =>
        Split.Chained r entry.2 entry.1.toNat part.1 b) r.orders.zipIdx parts

/-- If there is a first-order form, every equation has been solved for the unknown
    that it is assigned to. -/
theorem Arena.split_settled {a : Arena} (wf : a.WellFormed) {roots : List Nat} {r : Registry}
    {rhs : List RightHandSide} (stored : ∀ s ∈ rhs, s.Stored a) (domain : Domain Float)
    (options : ReductionOptions) :
    Ends (Arena.split roots r domain (some rhs) options) a
      (fun s b => (rhs.length = roots.length ∧ a.assignEquations roots r = .ok s.assignment ∧
        ∀ entry ∈ r.orders.zipIdx, Split.Settled a roots r s.assignment entry) ∧
        s.Assembled r b)
      fun _ _ => True := by
  -- the right-hand sides may be any stored ones
  apply (split_ends (Extends.refl a) wf (fun e s given =>
    Split.rightHandSide_stored (stored s (List.mem_of_getElem? given)) r) r domain options).mono
    ?_ fun _ _ _ => trivial
  rintro s b ⟨count, passed⟩
  obtain ⟨parts, equations, -, blocks⟩ := passed.blocks
  have assigned : a.Assigned roots r s.assignment := assignEquations_ended.of_ok passed.found
  refine ⟨⟨count, passed.found, ?_⟩, passed.slots, parts, equations, ?_⟩
  · intro entry listed
    obtain ⟨part, -, e, t, target, x, rest, given, tree, -, solvable, -⟩ :=
      exists_mem_of_forall₂_left blocks listed
    rw [List.getElem?_map] at tree
    obtain ⟨root, equation, rfl⟩ := Option.map_eq_some_iff.mp tree
    exact ⟨e, root, given, equation, x, rest, solvable.lead, solvable.substituted⟩
  · have positive : ∀ entry ∈ r.orders.zipIdx, 1 ≤ entry.1 := fun entry listed =>
      assigned.positive _ (List.mem_of_getElem? (List.mk_mem_zipIdx_iff_getElem?.mp listed))
    apply ((List.forall₂_and_left _ _).mpr ⟨positive, blocks⟩).imp
    rintro entry part ⟨positive, e, t, target, x, rest, -, -, -, -, solved⟩
    exact ⟨solved.length (by omega), fun j => solved.lower⟩

/-! ## Assignments without a choice -/

namespace Arena

variable {a : Arena} {roots roots' : List Nat} {r : Registry} {assignment : List Nat}

/-- An assignment names distinct equations that define their unknowns. -/
theorem assignEquations_defines (found : a.assignEquations roots r = .ok assignment) :
    assignment.length = r.size ∧ assignment.Nodup ∧
      ∀ var e, assignment[var]? = some e → a.Defines roots r var e := by
  have assigned : a.Assigned roots r assignment := assignEquations_ended.of_ok found
  rw [assignEquations_eq assigned.count assigned.positive assigned.inside assigned.size] at found
  cases complete : Matching.complete (Assignment.candidates a roots r) r.size with
  | error var =>
    rw [complete] at found
    cases found
  | ok m =>
    rw [complete] at found
    obtain ⟨f, known⟩ := Assignment.exists_bijection assigned.count assigned.positive complete
    have entries : assignment = List.ofFn fun var : Fin r.size => (f var : Nat) := by
      rw [← Except.ok.inj found, List.ofFn_eq_map, ← List.map_coe_finRange_eq_range, List.map_map]
      refine List.map_congr_left fun var _ => ?_
      show (m.target? var).getD 0 = f var
      rw [(known var).1, Option.getD_some]
    subst entries
    refine ⟨List.length_ofFn, ?_, ?_⟩
    · exact List.nodup_ofFn.mpr fun i j same => f.injective (Fin.ext same)
    · intro var e listed
      obtain ⟨inside, rfl⟩ := List.getElem?_eq_some_iff.mp listed
      rw [List.length_ofFn] at inside
      rw [List.getElem_ofFn]
      exact (known ⟨var, inside⟩).2

/-- If each unknown has one candidate, and distinct unknowns have distinct ones,
    the candidates are assigned. -/
theorem assignEquations_of_only (count : roots.length = r.size) (positive : ∀ n ∈ r.orders, 1 ≤ n)
    (inside : ∀ root ∈ roots, root < a.count) (size : r.size ≤ a.size)
    (length : assignment.length = r.size) (nodup : assignment.Nodup)
    (only : ∀ var e, a.Defines roots r var e ↔ assignment[var]? = some e) :
    a.assignEquations roots r = .ok assignment := by
  rw [assignEquations_eq count positive inside size]
  cases complete : Matching.complete (Assignment.candidates a roots r) r.size with
  | ok m =>
    obtain ⟨f, known⟩ := Assignment.exists_bijection count positive complete
    refine congrArg Except.ok (List.ext_getElem? fun var => ?_)
    by_cases below : var < r.size
    · obtain ⟨target, defines⟩ := known ⟨var, below⟩
      rw [List.getElem?_map, List.getElem?_range below, Option.map_some, target, Option.getD_some]
      exact ((only _ _).mp defines).symm
    · rw [List.getElem?_eq_none (by simpa using below), List.getElem?_eq_none (by omega)]
  | error var =>
    obtain ⟨-, m, reached, -, -, unknowns, deficient⟩ :=
      Assignment.exists_deficient positive complete
    -- the candidates themselves are a bijection
    refine absurd ?_ (Assignment.not_bijection_of_deficient unknowns deficient)
    have defines : ∀ var : Fin r.size, a.Defines roots r var assignment[var] := by
      intro var
      exact (only _ _).mpr (List.getElem?_eq_getElem (by omega))
    have bound : ∀ var : Fin r.size, assignment[var] < roots.length := by
      intro var
      obtain ⟨root, n, k, stored, -⟩ := defines var
      exact (List.getElem?_eq_some_iff.mp stored).1
    let f : Fin r.size → Fin roots.length := fun var => ⟨assignment[var], bound var⟩
    have injective : Function.Injective f := by
      intro i j same
      have same : assignment[i] = assignment[j] := congrArg Fin.val same
      exact Fin.ext (nodup.getElem_inj_iff.mp same)
    have bijective : Function.Bijective f :=
      (Fintype.bijective_iff_injective_and_card f).mpr ⟨injective, by simp [count]⟩
    exact ⟨Equiv.ofBijective f bijective, defines⟩

/-- An equation that has been solved for an unknown defines no other. -/
theorem defines_iff_of_settled (wf : a.WellFormed)
    (found : a.assignEquations roots r = .ok assignment)
    (settled : ∀ entry ∈ r.orders.zipIdx, Split.Settled a roots r assignment entry) (var e : Nat) :
    a.Defines roots r var e ↔ assignment[var]? = some e := by
  have assigned : a.Assigned roots r assignment := assignEquations_ended.of_ok found
  refine ⟨?_, (assignEquations_defines found).2.2 var e⟩
  rintro ⟨root, n, k, stored, known, order, same⟩
  -- some unknown `v` has been given this equation, and if it were another one, the order of `var`
  -- in the equation would be too low for it to be defined
  obtain ⟨v, below, given⟩ := assigned.onto e (List.getElem?_eq_some_iff.mp stored).1
  by_cases other : var = v
  · rw [other]
    exact given
  exfalso
  have listed : (r.orders[v], v) ∈ r.orders.zipIdx :=
    List.mk_mem_zipIdx_iff_getElem?.mpr (List.getElem?_eq_getElem below)
  obtain ⟨e', root', given', stored', isolates⟩ := settled _ listed
  obtain rfl : e = e' := Option.some.inj (given.symm.trans given')
  obtain rfl : root = root' := Option.some.inj (stored.symm.trans stored')
  have held := assigned.inside root (List.mem_of_getElem? stored)
  have inside : var < r.size := (List.getElem?_eq_some_iff.mp known).1
  rw [diffOrder_info_getElem? wf held (Nat.lt_of_lt_of_le inside assigned.size)] at order
  have low := isolates.diffOrder_lt other known (assigned.positive n (List.mem_of_getElem? known))
  rw [Option.some.inj order] at low
  omega

theorem defines_reordered {σ : Equiv.Perm Nat} (reordered : Reorders σ roots roots') {var e : Nat} :
    a.Defines roots' r var (σ e) ↔ a.Defines roots r var e := by
  rw [Defines, Defines, reordered e]

/-- In another order the same equations are assigned. -/
theorem assignEquations_reordered (wf : a.WellFormed)
    (found : a.assignEquations roots r = .ok assignment)
    (settled : ∀ entry ∈ r.orders.zipIdx, Split.Settled a roots r assignment entry)
    {σ : Equiv.Perm Nat} (reordered : Reorders σ roots roots') :
    a.assignEquations roots' r = .ok (assignment.map σ) := by
  have assigned : a.Assigned roots r assignment := assignEquations_ended.of_ok found
  obtain ⟨length, nodup, -⟩ := assignEquations_defines found
  -- the reordered assignment names the only candidates there are
  have inside : ∀ root ∈ roots', root < a.count :=
    fun root hr => assigned.inside root (reordered.mem_iff.mp hr)
  apply assignEquations_of_only (reordered.length_eq.trans assigned.count) assigned.positive inside
    assigned.size
  · rw [List.length_map, length]
  · exact nodup.map σ.injective
  · intro var e
    obtain ⟨e, rfl⟩ := σ.surjective e
    rw [defines_reordered reordered, defines_iff_of_settled wf found settled, List.getElem?_map]
    simp

end Arena

/-! ## Splitting in another order -/

/-- The number of an equation is mentioned in an error only. -/
theorem Split.equationsOf_reordered {p : Problem} {roots : List Nat} {rhs : List RightHandSide}
    {σ : Equiv.Perm Nat} (equations : Reorders σ p.roots roots) (sides : Reorders σ p.rhs rhs)
    {var e : Nat} (assigned : p.assignment[var]? = some e) (order : Nat) (memo : Substitute.Memo)
    (a : Arena) :
    Ends (equationsOf p var order memo) a
      (fun q b => equationsOf { p with assignment := p.assignment.map σ, roots, rhs } var order
        memo a = .ok q b)
      fun _ _ => True := by
  have place : (p.assignment.map σ)[var]?.getD 0 = σ e := by
    rw [List.getElem?_map, assigned]
    rfl
  -- both read the same equation and the same side; if there is no coefficient, the errors differ
  unfold equationsOf
  simp only [place, assigned, Option.getD_some, equations e, sides e]
  cases extracted : Arena.extractLeading (p.roots[e]?.getD 0) var order a with
  | error e' b =>
    apply Ends.bindState
    apply Ends.liftState
    rw [Ends, extracted]
    exact trivial
  | ok leading b =>
    have run : (monadLift (Arena.extractLeading (p.roots[e]?.getD 0) var order) :
        Substitute.Substituting (Option Leading)) memo a = .ok (leading, memo) b :=
      run_bind extracted
    apply Ends.intro ?_ fun _ _ _ => trivial
    intro q c
    rw [run_bindState run, run_bindState run]
    cases leading with
    | none =>
      intro ended
      cases ended
    | some leading => exact id

/-- The equations of all unknowns, which are dealt with in their own order. -/
def Split.assemble (p : Problem) : Building SplitSystem := do
  let parts ← (p.registry.orders.zipIdx.mapM fun entry =>
    equationsOf p entry.2 entry.1.toNat).run' ∅
  return ⟨p.registry, (parts.map Prod.fst).flatten, p.slots, p.assignment, parts.map Prod.snd⟩

theorem Split.assemble_reordered {p : Problem} {roots : List Nat} {rhs : List RightHandSide}
    {σ : Equiv.Perm Nat} (equations : Reorders σ p.roots roots) (sides : Reorders σ p.rhs rhs)
    (assigned : ∀ var < p.registry.size, ∃ e, p.assignment[var]? = some e) (a : Arena) :
    Ends (assemble p) a
      (fun s b => assemble { p with assignment := p.assignment.map σ, roots, rhs } a =
        .ok { s with assignment := p.assignment.map σ } b)
      fun _ _ => True := by
  have each : ∀ entry ∈ p.registry.orders.zipIdx, ∀ memo b,
      Ends (equationsOf p entry.2 entry.1.toNat memo) b
        (fun q c => equationsOf { p with assignment := p.assignment.map σ, roots, rhs } entry.2
          entry.1.toNat memo b = .ok q c)
        fun _ _ => True := by
    rintro ⟨n, var⟩ listed memo b
    have known := List.mk_mem_zipIdx_iff_getElem?.mp listed
    obtain ⟨e, given⟩ := assigned var (List.getElem?_eq_some_iff.mp known).1
    exact equationsOf_reordered equations sides given n.toNat memo b
  apply Ends.bind
  apply Ends.map
  apply (Ends.mapM_eq_ok each ∅ a).weaken
  intro q b ended
  exact Ends.pure (run_bind (run_map ended))

namespace Arena

variable {a : Arena} {roots roots' : List Nat} {r : Registry}

theorem split_assigned {rhs : List RightHandSide} (count : rhs.length = roots.length)
    {assignment : List Nat} (found : a.assignEquations roots r = .ok assignment)
    (domain : Domain Float) (options : ReductionOptions) :
    Arena.split roots r domain (some rhs) options a =
      Split.assemble ⟨r, r.slots, assignment, roots, rhs, domain, options⟩ a := by
  rw [Arena.split, Option.getD_some, if_neg (not_not.mpr count)]
  show ((MonadExcept.ofExcept (a.assignEquations roots r) : Building (List Nat)) >>= _) a = _
  rw [found]
  rfl

variable {σ : Equiv.Perm Nat} {domain : Domain Float} {options : ReductionOptions}

/-- A system that can be split can be split in another order. -/
theorem split_some_reordered (wf : a.WellFormed) (equations : Reorders σ roots roots')
    {rhs rhs' : List RightHandSide} (sides : Reorders σ rhs rhs') (stored : ∀ s ∈ rhs, s.Stored a)
    {s : SplitSystem} {b : Arena} (run : Arena.split roots r domain (some rhs) options a = .ok s b) :
    Arena.split roots' r domain (some rhs') options a =
      .ok { s with assignment := s.assignment.map σ } b := by
  obtain ⟨⟨count, found, settled⟩, -⟩ := (split_settled wf stored domain options).of_ok run
  have found' := assignEquations_reordered wf found settled equations
  have count' : rhs'.length = roots'.length := by
    rw [sides.length_eq, count, equations.length_eq]
  have assigned : a.Assigned roots r s.assignment := assignEquations_ended.of_ok found
  have known : ∀ var < r.size, ∃ e, s.assignment[var]? = some e := by
    intro var inside
    obtain ⟨e, -, given⟩ := assigned.assigned var inside
    exact ⟨e, given⟩
  rw [split_assigned count found] at run
  rw [split_assigned count' found']
  exact (Split.assemble_reordered
    (p := ⟨r, r.slots, s.assignment, roots, rhs, domain, options⟩) equations sides known a).of_ok run

theorem split_none : Arena.split roots r domain none options =
    Arena.split roots r domain (some (roots.map fun _ => .zero)) options := by
  rw [Arena.split, Arena.split, Option.getD_none, Option.getD_some]

variable {rhs rhs' : Option (List RightHandSide)}

theorem split_of_reorders (wf : a.WellFormed) (equations : Reorders σ roots roots')
    (sides : Option.Rel (Reorders σ) rhs rhs') (stored : ∀ s ∈ rhs.getD [], s.Stored a)
    {s : SplitSystem} {b : Arena} (run : Arena.split roots r domain rhs options a = .ok s b) :
    Arena.split roots' r domain rhs' options a =
      .ok { s with assignment := s.assignment.map σ } b := by
  cases sides with
  | some sides => exact split_some_reordered wf equations sides stored run
  | none =>
    rw [split_none] at run
    rw [split_none]
    refine split_some_reordered wf equations (equations.map _) ?_ run
    intro s hs
    obtain ⟨root, -, rfl⟩ := List.mem_map.mp hs
    trivial

/-- **The order of the equations does not matter.**  They can be split in every order or in none,
    and the result is the same in the same arena, but for the numbers of the equations in the
    assignment. -/
theorem split_reordered (wf : a.WellFormed) (equations : Reorders σ roots roots')
    (sides : Option.Rel (Reorders σ) rhs rhs') (stored : ∀ s ∈ rhs.getD [], s.Stored a)
    (r : Registry) (domain : Domain Float) (options : ReductionOptions) :
    ((∃ s b, Arena.split roots r domain rhs options a = .ok s b) ↔
      ∃ s b, Arena.split roots' r domain rhs' options a = .ok s b) ∧
    ∀ s b s' b', Arena.split roots r domain rhs options a = .ok s b →
      Arena.split roots' r domain rhs' options a = .ok s' b' →
      s' = { s with assignment := s.assignment.map σ } ∧ b' = b := by
  have back : Option.Rel (Reorders σ.symm) rhs' rhs := by
    cases sides with
    | none => exact .none
    | some sides => exact .some sides.symm
  have stored' : ∀ s ∈ rhs'.getD [], s.Stored a := by
    cases sides with
    | none => exact stored
    | some sides => exact fun s hs => stored s (sides.mem_iff.mp hs)
  refine ⟨⟨?_, ?_⟩, ?_⟩
  · rintro ⟨s, b, run⟩
    exact ⟨_, b, split_of_reorders wf equations sides stored run⟩
  · rintro ⟨s, b, run⟩
    exact ⟨_, b, split_of_reorders wf equations.symm back stored' run⟩
  · intro s b s' b' run run'
    have again := split_of_reorders wf equations sides stored run
    cases run'.symm.trans again
    exact ⟨rfl, rfl⟩

/-- Equations `u^(n) = 0`, one for each unknown, can be split. -/
theorem split_jets (wf : a.WellFormed) {assignment : List Nat}
    (assigned : a.assignEquations roots r = .ok assignment)
    (jets : ∀ root ∈ roots, ∃ i k, a.expression root = .derivative (.leaf i) k)
    (own : ∀ entry ∈ r.orders.zipIdx, ∃ e, assignment[entry.2]? = some e ∧
      (roots.map a.expression)[e]? = some (.derivative (.leaf entry.2) entry.1.toNat))
    (d : Domain Float) : ∃ s b, Arena.split roots r d none {} a = .ok s b := by
  have normal : ∀ root ∈ roots, (a.expression root).isNormal = true := by
    intro root hr
    obtain ⟨i, k, form⟩ := jets root hr
    rw [form]
    rfl
  have solid : ∀ root ∈ roots, (a.expression root).solid = true := by
    intro root hr
    obtain ⟨i, k, form⟩ := jets root hr
    rw [form]
    rfl
  have settled : ∀ root ∈ roots, ∀ var order x, 0 < order →
      (a.expression root).lead var order = some x → ∀ k ∈ x.1.values, a.Settles k := by
    intro root hr var order x _ lead k hk
    obtain ⟨i, k, form⟩ := jets root hr
    rw [form] at lead
    rw [Tree.lead_jet lead] at hk
    exact Or.inl (List.mem_singleton.mp hk)
  -- the leading coefficient of a jet is one, and nothing is left over
  have solvable : Split.AllSolvable a r d {} assignment (roots.map a.expression) := by
    intro entry listed
    obtain ⟨e, given, tree⟩ := own entry listed
    have lead : (Tree.derivative (.leaf entry.2) entry.1.toNat).lead entry.2 entry.1.toNat =
        some (Tree.one, none) := by
      simp [Tree.lead, Tree.halve, Tree.diffOrder, Tree.dependsOn]
    exact ⟨e, _, _, none, given, tree, lead, LeadingCoefficient.accepts_one wf d {} _ _, rfl⟩
  have provided : ∀ s ∈ roots.map fun _ => .zero, Split.Provides a s none := by
    intro s hs
    obtain ⟨root, -, rfl⟩ := List.mem_map.mp hs
    exact Split.provides_zero a
  have exact := split_exact (Arena.Extends.refl a) wf normal solid settled (List.length_map _)
    provided r d {}
  obtain ⟨s, b, run, -⟩ := (exact.mono (fun _ _ => id) fun _ _ refused =>
    refused _ assigned solvable).exists_ok
  refine ⟨s, b, ?_⟩
  rw [split_none]
  exact run

/-! ### Two equations with one unknown each -/

/-- The equations `u' = 0` and `v' = 0`. -/
def apart : Building (List Nat) := do
  let u ← leaf 0
  let du ← derivative u 1
  let v ← leaf 1
  let dv ← derivative v 1
  return [du, dv]

/-- The expressions of the two equations. -/
structure IsApart (roots : List Nat) (a : Arena) : Prop where
  wellFormed : a.WellFormed
  size : a.size = 2
  inside : ∀ root ∈ roots, root < a.count
  expressions : roots.map a.expression = [.derivative (.leaf 0) 1, .derivative (.leaf 1) 1]

theorem apart_isApart : Ends apart (.empty 2) IsApart fun _ _ => False := by
  refine Ends.bind ((leaf_makes (wellFormed_empty 2 0) (by decide)).weaken ?_)
  intro u a₁ first
  refine Ends.bind ((derivative_makes first.wellFormed (by decide) first.inside).weaken ?_)
  intro du a₂ rate
  rw [first.expression] at rate
  have grown₂ := first.grown.trans rate.grown
  refine Ends.bind ((leaf_makes rate.wellFormed (grown₂.size ▸ by decide)).weaken ?_)
  intro v a₃ second
  refine Ends.bind ((derivative_makes second.wellFormed (by decide) second.inside).weaken ?_)
  intro dv a₄ rate'
  rw [second.expression] at rate'
  have later := second.grown.trans rate'.grown
  have same := later.expression rate.wellFormed rate.inside
  refine Ends.pure ⟨rate'.wellFormed, (grown₂.trans later).size, ?_, ?_⟩
  · simpa using ⟨later.lt_count rate.inside, rate'.inside⟩
  · simp [same, rate.expression, rate'.expression]

theorem split_apart (is : IsApart [1, 3] a)
    (assigned : a.assignEquations [1, 3] Assignment.twin = .ok [0, 1]) (d : Domain Float) :
    ∃ s b, Arena.split [1, 3] Assignment.twin d none {} a = .ok s b := by
  refine split_jets (r := Assignment.twin) is.wellFormed assigned ?_ ?_ d
  · intro root hr
    have listed := List.mem_map_of_mem (f := a.expression) hr
    rw [is.expressions] at listed
    rcases List.mem_cons.mp listed with first | second
    · exact ⟨0, 1, first⟩
    · exact ⟨1, 1, List.mem_singleton.mp second⟩
  · rw [is.expressions]
    intro entry listed
    have entries : entry = (1, 0) ∨ entry = (1, 1) := by simpa [Assignment.twin] using listed
    rcases entries with rfl | rfl
    · exact ⟨0, rfl, rfl⟩
    · exact ⟨1, rfl, rfl⟩

/-- The two equations can be split, and they can be written in the other order. -/
theorem split_reordered_apart : ∃ a, apart (.empty 2) = .ok [1, 3] a ∧ ∀ d,
    ∃ s b, Arena.split [1, 3] Assignment.twin d none {} a = .ok s b ∧
      ∃ s' b', Arena.split [3, 1] Assignment.twin d none {} a = .ok s' b' ∧
        s' = { s with assignment := s.assignment.map (Equiv.swap 0 1) } ∧ b' = b := by
  have built : Ends apart (.empty 2) (fun hs a => hs = [1, 3] ∧
      a.assignEquations hs Assignment.twin = .ok [0, 1]) fun _ _ => False := by
    cbv
  obtain ⟨_, a, run, is, rfl, assigned⟩ := (apart_isApart.and built).mono
    (fun _ _ => id) (fun _ _ => And.left) |>.exists_ok
  refine ⟨a, run, fun d => ?_⟩
  obtain ⟨iff, same⟩ := split_reordered is.wellFormed (Reorders.swap 1 3 [])
    (.none (α := List RightHandSide)) (by simp) Assignment.twin d {}
  obtain ⟨s, b, split⟩ := split_apart is assigned d
  obtain ⟨s', b', split'⟩ := iff.mp ⟨s, b, split⟩
  exact ⟨s, b, split, s', b', split', same s b s' b' split split'⟩

end Arena

end JetForm
