import JetForm.Proofs.Reduction.Assignment
import JetForm.Proofs.Reduction.Substitute
import JetForm.Reduction.Split

/-! # One unknown after the other

    Equations are split in turns, one for each unknown.  A turn finds the arena
    grown by those before it, with the roots as they were, and leaves the trees it
    has built.  What is proved of a single turn holds of all of them, if it
    survives the growth that the later ones bring. -/

namespace JetForm

namespace Split

/-- It is the turn of an unknown of order `n`: the equation with the given root is
    assigned to it, and the arena `a` has grown to `b`. -/
structure Turn (a : Arena) (roots : List Nat) (r : Registry) (assignment : List Nat) (var : Nat)
    (n : Int) (e root : Nat) (memo : Substitute.Memo) (b : Arena) : Prop where
  found : a.assignEquations roots r = .ok assignment
  known : r.orders[var]? = some n
  given : assignment[var]? = some e
  equation : roots[e]? = some root
  stored : root < a.count
  wellFormed : b.WellFormed
  grown : a.Extends b
  remembers : Arena.Remembers (Tree.substitute r r.slots) memo b

/-- The turns leave good equations for the unknowns, in their order. -/
structure Passed (good : List Nat → Arena → Int × Nat → List Nat × LeadingCoefficient → Prop)
    (a : Arena) (roots : List Nat) (r : Registry) (s : SplitSystem) (b : Arena) : Prop where
  registry : s.registry = r
  slots : s.slots = r.slots
  found : a.assignEquations roots r = .ok s.assignment
  wellFormed : b.WellFormed
  grown : a.Extends b
  blocks : ∃ parts, s.equations = (parts.map Prod.fst).flatten ∧
    s.coefficients = parts.map Prod.snd ∧
    List.Forall₂ (good s.assignment b) r.orders.zipIdx parts

namespace Turn

variable {a b : Arena} {roots : List Nat} {r : Registry} {assignment : List Nat} {var e root : Nat}
  {n : Int} {memo : Substitute.Memo}

theorem assigned (turn : Turn a roots r assignment var n e root memo b) :
    a.Assigned roots r assignment :=
  Arena.assignEquations_ended.of_ok turn.found

theorem positive (turn : Turn a roots r assignment var n e root memo b) : 0 < n :=
  turn.assigned.positive n (List.mem_of_getElem? turn.known)

theorem listed (turn : Turn a roots r assignment var n e root memo b) :
    (n, var) ∈ r.orders.zipIdx :=
  List.mk_mem_zipIdx_iff_getElem?.mpr turn.known

theorem inside (turn : Turn a roots r assignment var n e root memo b) : var < b.size := by
  have below : var < r.size := (List.getElem?_eq_some_iff.mp turn.known).1
  have size := turn.assigned.size
  rw [turn.grown.size]
  omega

theorem mem (turn : Turn a roots r assignment var n e root memo b) : root ∈ roots :=
  List.mem_of_getElem? turn.equation

theorem lt_count (turn : Turn a roots r assignment var n e root memo b) : root < b.count :=
  turn.grown.lt_count turn.stored

/-- The equation is what it was before the first turn. -/
theorem expression (turn : Turn a roots r assignment var n e root memo b) (wf : a.WellFormed) :
    b.expression root = a.expression root :=
  turn.grown.expression wf turn.stored

/-- Its right-hand side, if there is one for each equation. -/
theorem exists_rhs (turn : Turn a roots r assignment var n e root memo b)
    {rhs : List RightHandSide} (count : rhs.length = roots.length) : ∃ s, rhs[e]? = some s := by
  have below : e < roots.length := (List.getElem?_eq_some_iff.mp turn.equation).1
  exact ⟨rhs[e], List.getElem?_eq_getElem (by omega)⟩

end Turn

variable {a : Arena} {roots : List Nat} {r : Registry} {rhs : List RightHandSide}
  {domain : Domain Float} {options : ReductionOptions}
  {good : List Nat → Arena → Int × Nat → List Nat × LeadingCoefficient → Prop}
  {failed : Error → Prop}

/-- What each turn leaves is there after the last one. -/
theorem turns_end (wf : a.WellFormed) {assignment : List Nat}
    (found : a.assignEquations roots r = .ok assignment)
    (grow : ∀ {b c entry q}, good assignment b entry q → b.WellFormed → b.Extends c →
      good assignment c entry q)
    (each : ∀ {var n e root memo b}, Turn a roots r assignment var n e root memo b →
      Ends (equationsOf ⟨r, r.slots, assignment, roots, rhs, domain, options⟩ var n.toNat memo) b
        (fun q c => (c.WellFormed ∧ b.Extends c ∧
          Arena.Remembers (Tree.substitute r r.slots) q.2 c) ∧ good assignment c (n, var) q.1)
        fun e _ => failed e) :
    Ends ((r.orders.zipIdx.mapM fun (entry : Int × Nat) =>
        equationsOf ⟨r, r.slots, assignment, roots, rhs, domain, options⟩ entry.2
          entry.1.toNat) ∅) a
      (fun q b => (b.WellFormed ∧ a.Extends b ∧
        Arena.Remembers (Tree.substitute r r.slots) q.2 b) ∧
        List.Forall₂ (good assignment b) r.orders.zipIdx q.1)
      fun e _ => failed e := by
  have assigned : a.Assigned roots r assignment := Arena.assignEquations_ended.of_ok found
  -- the unknowns that have had their turn
  apply Ends.mapMState fun before (q : List (List Nat × LeadingCoefficient) × Substitute.Memo) b =>
    (b.WellFormed ∧ a.Extends b ∧ Arena.Remembers (Tree.substitute r r.slots) q.2 b) ∧
      List.Forall₂ (good assignment b) before q.1
  · exact ⟨⟨wf, Arena.Extends.refl a, Arena.remembers_empty⟩, List.Forall₂.nil⟩
  · rintro before ⟨n, var⟩ after qs memo b eq ⟨⟨wf', grown, remembers⟩, parts⟩
    have known : r.orders[var]? = some n :=
      List.mk_mem_zipIdx_iff_getElem?.mp (eq ▸ by simp : (n, var) ∈ r.orders.zipIdx)
    have inside : var < r.size := (List.getElem?_eq_some_iff.mp known).1
    obtain ⟨e, bound, given⟩ := assigned.assigned var inside
    have turn : Turn a roots r assignment var n e roots[e] memo b :=
      ⟨found, known, given, List.getElem?_eq_getElem bound,
        assigned.inside _ (List.getElem_mem bound), wf', grown, remembers⟩
    apply (each turn).weaken
    rintro ⟨q, memo'⟩ c ⟨⟨wf'', grown', remembers'⟩, made⟩
    refine ⟨⟨wf'', grown.trans grown', remembers'⟩, ?_⟩
    exact List.rel_append (parts.imp fun _ _ known => grow known wf' grown')
      (List.Forall₂.cons made List.Forall₂.nil)

end Split

open Split in
/-- **A split in turns.**  It is good if every turn is, and it fails as a turn does,
    or because the right-hand sides are too many or too few, or because the unknowns
    cannot be assigned. -/
theorem Arena.split_passes {a : Arena} (wf : a.WellFormed) {roots : List Nat} {r : Registry}
    {rhs : List RightHandSide} {domain : Domain Float} {options : ReductionOptions}
    (good : List Nat → Arena → Int × Nat → List Nat × LeadingCoefficient → Prop)
    (failed : Error → Prop)
    (grow : ∀ {assignment b c entry q}, good assignment b entry q → b.WellFormed → b.Extends c →
      good assignment c entry q)
    (miscounted : rhs.length ≠ roots.length → failed (.rhsCount rhs.length roots.length))
    (unassigned : ∀ e, a.assignEquations roots r = .error e → failed e)
    (each : ∀ {assignment var n e root memo b}, rhs.length = roots.length →
      Split.Turn a roots r assignment var n e root memo b →
      Ends (equationsOf ⟨r, r.slots, assignment, roots, rhs, domain, options⟩ var n.toNat memo) b
        (fun q c => (c.WellFormed ∧ b.Extends c ∧
          Arena.Remembers (Tree.substitute r r.slots) q.2 c) ∧ good assignment c (n, var) q.1)
        fun e _ => failed e) :
    Ends (Arena.split roots r domain (some rhs) options) a
      (fun s b => rhs.length = roots.length ∧ Passed good a roots r s b) fun e _ => failed e := by
  rw [Arena.split, Option.getD_some]
  split
  next miscount => exact Ends.bind (Ends.throw (miscounted miscount))
  next count =>
    have count : rhs.length = roots.length := not_not.mp count
    apply Ends.bind
    apply Ends.get
    apply Ends.bind
    apply Ends.ofExcept
    apply Ended.intro ?_ unassigned
    intro assignment found
    apply Ends.bind
    apply Ends.map
    -- the assignment is fixed from here on; what is left is one turn for each unknown
    apply (turns_end wf found grow (each count)).weaken
    rintro ⟨parts, memo⟩ b ⟨⟨wf', grown, -⟩, blocks⟩
    exact Ends.pure ⟨count, rfl, rfl, found, wf', grown, parts, rfl, rfl, blocks⟩

end JetForm
