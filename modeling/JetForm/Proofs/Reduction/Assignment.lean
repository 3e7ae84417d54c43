import JetForm.Proofs.Program.Reading
import JetForm.Proofs.Reduction.Alternating
import JetForm.Proofs.Tree.Traversal
import JetForm.Reduction.Assignment

/-! # Each unknown has an equation

    There are as many equations as unknowns, so when every unknown has an
    equation of its own, every equation is that of some unknown: an assignment is
    a bijection.  There is one whenever the equations admit one, and otherwise
    the unknown in the error is on alternating paths to too many others: together
    they have fewer equations than they are. -/

namespace JetForm

/-- What holds when the unknowns have been assigned to equations. -/
structure Arena.Assigned (a : Arena) (roots : List Nat) (r : Registry) (assignment : List Nat) :
    Prop where
  count : roots.length = r.size
  size : r.size ≤ a.size
  inside : ∀ root ∈ roots, root < a.count
  positive : ∀ n ∈ r.orders, 0 < n
  assigned : ∀ var < r.size, ∃ e < roots.length, assignment[var]? = some e
  onto : ∀ e < roots.length, ∃ var < r.size, assignment[var]? = some e

namespace Assignment

variable {a : Arena} {roots : List Nat} {r : Registry}

theorem lt_of_mem_candidates {var e : Nat} (candidate : e ∈ candidates a roots r var) :
    e < roots.length :=
  List.mem_range.mp (List.mem_filter.mp candidate).1

/-- An unknown that has an equation is of a natural order. -/
theorem nonneg_of_mem_candidates {var e : Nat} (candidate : e ∈ candidates a roots r var) {n : Int}
    (known : r.orders[var]? = some n) : 0 ≤ n := by
  have order := (List.mem_filter.mp candidate).2
  rw [known] at order
  split at order
  next root m _ eq =>
    cases eq
    have same := beq_iff_eq.mp order
    omega
  next => cases order

/-- Distinct unknowns have distinct equations, so each equation is taken. -/
theorem assigned_of_complete {m : Matching} (count : roots.length = r.size)
    (found : Matching.complete (candidates a roots r) r.size = .ok m) :
    (∀ var < r.size, ∃ e < roots.length, m.target? var = some e) ∧
      ∀ e < roots.length, ∃ var < r.size, m.target? var = some e := by
  obtain ⟨valid, has⟩ := Matching.complete_valid found
  have assigned : ∀ var < r.size, ∃ e < roots.length, m.target? var = some e := by
    intro var inside
    obtain ⟨e, target⟩ := Matching.target?_of_has (has var inside)
    exact ⟨e, lt_of_mem_candidates (valid.edges e var (Matching.owner?_of_target? valid target)),
      target⟩
  refine ⟨assigned, ?_⟩
  choose! equation bound target using assigned
  let f : Fin r.size → Fin r.size := fun i =>
    ⟨equation i, Nat.lt_of_lt_of_eq (bound i i.2) count⟩
  have injective : Function.Injective f := by
    intro i j same
    have same : equation i = equation j := congrArg Fin.val same
    have owner := Matching.owner?_of_target? valid (target i i.2)
    rw [same, Matching.owner?_of_target? valid (target j j.2)] at owner
    exact Fin.ext (Option.some.inj owner).symm
  intro e he
  obtain ⟨i, eq⟩ := Finite.surjective_of_injective injective ⟨e, Nat.lt_of_lt_of_eq he count⟩
  have same : equation i = e := congrArg Fin.val eq
  exact ⟨i, i.2, same ▸ target i i.2⟩

theorem check_ended : Ended (check roots r)
    (fun _ => roots.length = r.size ∧ (0 : Int) ∉ r.orders) fun e => e.isLate = false := by
  rw [check]
  split
  next => exact rfl
  next count =>
    cases zero : r.orders.idxOf? 0 with
    | some var => exact rfl
    | none => exact ⟨not_not.mp count, List.idxOf?_eq_none_iff.mp zero⟩

end Assignment

theorem Arena.assignEquations_ended {a : Arena} {roots : List Nat} {r : Registry} :
    Ended (a.assignEquations roots r) (a.Assigned roots r) fun e => e.isLate = false := by
  refine Ended.bind (Assignment.check_ended.mono ?_ fun _ => id)
  rintro - ⟨count, nonzero⟩
  refine Ended.bind ?_
  rw [requireNodes]
  split
  case isFalse => exact rfl
  case isTrue stored =>
    show Ended (if a.size < r.size then _ else _) _ _
    split
    next => exact rfl
    next size =>
      dsimp only
      cases found : Matching.complete (Assignment.candidates a roots r) r.size with
      | error var => exact rfl
      | ok m =>
        obtain ⟨assigned, onto⟩ := Assignment.assigned_of_complete count found
        have entry : ∀ var < r.size, ∀ e, m.target? var = some e →
            ((List.range r.size).map fun var => (m.target? var).getD 0)[var]? = some e := by
          intro var inside e target
          rw [List.getElem?_map, List.getElem?_range inside, Option.map_some, target,
            Option.getD_some]
        refine ⟨count, Nat.not_lt.mp size, by simpa [Arena.count] using stored, ?_, ?_, ?_⟩
        · intro n hn
          obtain ⟨var, known⟩ := List.getElem?_of_mem hn
          have inside : var < r.size := (List.getElem?_eq_some_iff.mp known).1
          obtain ⟨e, -, target⟩ := assigned var inside
          have valid := (Matching.complete_valid found).1
          have nonneg := Assignment.nonneg_of_mem_candidates
            (valid.edges e var (Matching.owner?_of_target? valid target)) known
          -- order zero is refused at the entry, and a candidate has no negative order
          have other : n ≠ 0 := fun zero => nonzero (zero ▸ hn)
          omega
        · intro var inside
          obtain ⟨e, bound, target⟩ := assigned var inside
          exact ⟨e, bound, entry var inside e target⟩
        · intro e bound
          obtain ⟨var, inside, target⟩ := onto e bound
          exact ⟨var, inside, entry var inside e target⟩

/-! ## When there is an assignment -/

/-- Equation `e` contains the highest derivative of an unknown, that is the one
    of its order. -/
def Arena.Defines (a : Arena) (roots : List Nat) (r : Registry) (var e : Nat) : Prop :=
  ∃ root n k, roots[e]? = some root ∧ r.orders[var]? = some n ∧
    (a.info root).diffOrder[var]? = some k ∧ (k : Int) = n

namespace Assignment

variable {a : Arena} {roots : List Nat} {r : Registry}

/-- An equation without a derivative of the unknown is none of its candidates. -/
theorem mem_candidates_iff (positive : ∀ n ∈ r.orders, 1 ≤ n) {var e : Nat} :
    e ∈ candidates a roots r var ↔ a.Defines roots r var e := by
  rw [candidates, List.mem_filter, List.mem_range]
  constructor
  · rintro ⟨-, order⟩
    split at order
    next root n stored known =>
      have same := beq_iff_eq.mp order
      have some := positive n (List.mem_of_getElem? known)
      cases found : (a.info root).diffOrder[var]? with
      | some k =>
        rw [found, Option.getD_some] at same
        exact ⟨root, n, k, stored, known, found, same⟩
      | none =>
        rw [found, Option.getD_none] at same
        omega
    next => cases order
  · rintro ⟨root, n, k, stored, known, found, same⟩
    refine ⟨(List.getElem?_eq_some_iff.mp stored).1, ?_⟩
    simp [stored, known, found, same]

/-- A complete matching is a bijection. -/
theorem exists_bijection (count : roots.length = r.size) (positive : ∀ n ∈ r.orders, 1 ≤ n)
    {m : Matching} (found : Matching.complete (candidates a roots r) r.size = .ok m) :
    ∃ f : Fin r.size ≃ Fin roots.length, ∀ var : Fin r.size,
      m.target? var = some (f var : Nat) ∧ a.Defines roots r var (f var) := by
  obtain ⟨assigned, -⟩ := assigned_of_complete count found
  have valid := (Matching.complete_valid found).1
  choose! equation bound target using assigned
  let f : Fin r.size → Fin roots.length := fun var => ⟨equation var, bound var var.2⟩
  have owner : ∀ var : Fin r.size, m.owner? (f var) = some (var : Nat) :=
    fun var => Matching.owner?_of_target? valid (target var var.2)
  have injective : Function.Injective f := by
    intro i j same
    have owned := owner i
    rw [same, owner j] at owned
    exact Fin.ext (Option.some.inj owned).symm
  have bijective : Function.Bijective f :=
    (Fintype.bijective_iff_injective_and_card f).mpr ⟨injective, by simp [count]⟩
  refine ⟨Equiv.ofBijective f bijective, fun var => ⟨target var var.2, ?_⟩⟩
  exact (mem_candidates_iff positive).mp (valid.edges _ _ (owner var))

/-- Where the matching fails, the unknowns on alternating paths have fewer
    candidate equations than they are. -/
theorem exists_deficient (positive : ∀ n ∈ r.orders, 1 ≤ n) {var : Nat}
    (found : Matching.complete (candidates a roots r) r.size = .error var) :
    var < r.size ∧ ∃ m, ∃ reached : Finset Nat,
      Matching.complete (candidates a roots r) var = .ok m ∧
      (∀ v, v ∈ reached ↔ m.Alternating (candidates a roots r) var v) ∧
      (∀ v ∈ reached, v < r.size) ∧
      ∀ equations : Finset Nat, (∀ e ∈ equations, ∃ v ∈ reached, a.Defines roots r v e) →
        equations.card < reached.card := by
  obtain ⟨lt, m, before, vain⟩ := Matching.complete_error found
  have placed := Matching.complete_placed before
  obtain ⟨reached, mem, fewer⟩ := placed.exists_deficient Finset.notMem_range_self vain
  refine ⟨lt, m, reached, before, mem, ?_, ?_⟩
  · intro v hv
    cases (mem v).mp hv with
    | start => exact lt
    | step _ _ owned => exact Nat.lt_trans (Finset.mem_range.mp (placed.mem_of_owner? owned)) lt
  · intro equations all
    apply Nat.lt_of_le_of_lt (Finset.card_le_card ?_) fewer
    intro e he
    obtain ⟨v, hv, defines⟩ := all e he
    exact Finset.mem_biUnion.mpr
      ⟨v, hv, List.mem_toFinset.mpr ((mem_candidates_iff positive).mpr defines)⟩

/-- Unknowns with fewer candidate equations than they are rule out a bijection. -/
theorem not_bijection_of_deficient {reached : Finset Nat} (inside : ∀ v ∈ reached, v < r.size)
    (fewer : ∀ equations : Finset Nat,
      (∀ e ∈ equations, ∃ v ∈ reached, a.Defines roots r v e) → equations.card < reached.card) :
    ¬ ∃ f : Fin r.size ≃ Fin roots.length, ∀ var : Fin r.size, a.Defines roots r var (f var) := by
  rintro ⟨f, defines⟩
  let equation : Nat → Nat := fun v => if h : v < r.size then f ⟨v, h⟩ else 0
  have eq : ∀ v (h : v < r.size), equation v = f ⟨v, h⟩ := fun v h => dif_pos h
  have below := fewer (reached.image equation) fun e he => by
    obtain ⟨v, hv, rfl⟩ := Finset.mem_image.mp he
    exact ⟨v, hv, eq v (inside v hv) ▸ defines ⟨v, inside v hv⟩⟩
  have injective : Set.InjOn equation (reached : Set Nat) := by
    intro v hv v' hv' same
    rw [eq v (inside v hv), eq v' (inside v' hv')] at same
    exact congrArg Fin.val (f.injective (Fin.ext same))
  rw [Finset.card_image_of_injOn injective] at below
  exact Nat.lt_irrefl _ below

end Assignment

namespace Arena

variable {a : Arena} {roots : List Nat} {r : Registry}

/-- For equations and unknowns of the arena, the matching is the answer. -/
theorem assignEquations_eq (count : roots.length = r.size) (positive : ∀ n ∈ r.orders, 1 ≤ n)
    (inside : ∀ root ∈ roots, root < a.count) (size : r.size ≤ a.size) :
    a.assignEquations roots r =
      match Matching.complete (Assignment.candidates a roots r) r.size with
      | .ok m => .ok ((List.range r.size).map fun var => (m.target? var).getD 0)
      | .error var => .error (.noDefiningEquation (r.orders[var]?.getD 0) var) := by
  have nonzero : r.orders.idxOf? 0 = none := by
    rw [List.idxOf?_eq_none_iff]
    intro mem
    have := positive 0 mem
    omega
  have checked : Assignment.check roots r = .ok () := by
    simp [Assignment.check, count, nonzero, pure, Except.pure]
  rw [assignEquations, checked, requireNodes_eq_ok.mpr inside]
  show (if a.size < r.size then _ else _) = _
  rw [if_neg (Nat.not_lt.mpr size)]
  cases Matching.complete (Assignment.candidates a roots r) r.size <;> rfl

/-- The unknowns get their equations if and only if there is a bijection from
    unknowns to equations that define them, and then the answer is such a
    bijection.  Otherwise the error names an unknown: from the matching of those
    before it, the unknowns on alternating paths from it have fewer candidate
    equations than they are. -/
theorem assignEquations_bijection (count : roots.length = r.size)
    (positive : ∀ n ∈ r.orders, 1 ≤ n) (inside : ∀ root ∈ roots, root < a.count)
    (size : r.size ≤ a.size) :
    ((∃ equations, a.assignEquations roots r = .ok equations) ↔
      ∃ f : Fin r.size ≃ Fin roots.length, ∀ var : Fin r.size, a.Defines roots r var (f var)) ∧
    (∀ equations, a.assignEquations roots r = .ok equations →
      ∃ f : Fin r.size ≃ Fin roots.length, (∀ var : Fin r.size, a.Defines roots r var (f var)) ∧
        equations = List.ofFn fun var => (f var : Nat)) ∧
    ∀ e, a.assignEquations roots r = .error e →
      ∃ var n m, r.orders[var]? = some n ∧ e = .noDefiningEquation n var ∧
        Matching.complete (Assignment.candidates a roots r) var = .ok m ∧
        ∃ reached : Finset Nat,
          (∀ v, v ∈ reached ↔ m.Alternating (Assignment.candidates a roots r) var v) ∧
          ∀ equations : Finset Nat, (∀ e ∈ equations, ∃ v ∈ reached, a.Defines roots r v e) →
            equations.card < reached.card := by
  have answer := assignEquations_eq count positive inside size
  cases found : Matching.complete (Assignment.candidates a roots r) r.size with
  | ok m =>
    rw [found] at answer
    obtain ⟨f, assigned⟩ := Assignment.exists_bijection count positive found
    have defines : ∀ var : Fin r.size, a.Defines roots r var (f var) := fun var => (assigned var).2
    refine ⟨⟨fun _ => ⟨f, defines⟩, fun _ => ⟨_, answer⟩⟩, ?_, ?_⟩
    · intro equations run
      rw [answer] at run
      cases run
      refine ⟨f, defines, ?_⟩
      rw [List.ofFn_eq_map, ← List.map_coe_finRange_eq_range, List.map_map]
      refine List.map_congr_left fun var _ => ?_
      show (m.target? var).getD 0 = f var
      rw [(assigned var).1, Option.getD_some]
    · intro e run
      rw [answer] at run
      cases run
  | error var =>
    rw [found] at answer
    obtain ⟨lt, m, reached, before, mem, unknowns, deficient⟩ :=
      Assignment.exists_deficient positive found
    -- Hall's condition fails at the stuck set, so no bijection exists whatever the search order
    have none := Assignment.not_bijection_of_deficient unknowns deficient
    refine ⟨⟨?_, fun some => absurd some none⟩, ?_, ?_⟩
    · rintro ⟨equations, run⟩
      rw [answer] at run
      cases run
    · intro equations run
      rw [answer] at run
      cases run
    · intro e run
      rw [answer] at run
      cases run
      have known : r.orders[var]? = some r.orders[var] := List.getElem?_eq_getElem lt
      refine ⟨var, _, m, known, ?_, before, reached, mem, deficient⟩
      rw [known, Option.getD_some]

end Arena

namespace Assignment

/-- The equations `u' + v' = 0` and `u' = 0`. -/
def crossed : Building (List Nat) := do
  let u ← Arena.leaf 0
  let v ← Arena.leaf 1
  let du ← Arena.derivative u 1
  let dv ← Arena.derivative v 1
  let sum ← Arena.binary .plus (.treeTree du dv)
  return [sum, du]

/-- Two unknowns of first order. -/
def twin : Registry := ⟨[1, 1], ["u", "v"], by decide⟩

/-- The first unknown takes the first equation, and has to move to the second to
    make room for the second unknown. -/
theorem bijection_crossed : ∃ a, crossed (.empty 2) = .ok [4, 2] a ∧
    (∀ n ∈ twin.orders, 1 ≤ n) ∧ (∀ root ∈ [4, 2], root < a.count) ∧ twin.size ≤ a.size ∧
    ∃ f : Fin twin.size ≃ Fin [4, 2].length,
      (∀ var : Fin twin.size, a.Defines [4, 2] twin var (f var)) ∧
        [1, 0] = List.ofFn fun var => (f var : Nat) := by
  have built : Ends crossed (.empty 2)
      (fun hs a => hs = [4, 2] ∧ a.size = 2 ∧ a.count = 5 ∧
        a.assignEquations hs twin = .ok [1, 0]) fun _ _ => False := by
    cbv
  obtain ⟨hs, a, run, rfl, size, stored, assigned⟩ := built.exists_ok
  have positive : ∀ n ∈ twin.orders, 1 ≤ n := by decide
  have inside : ∀ root ∈ [4, 2], root < a.count := by simp [stored]
  have enough : twin.size ≤ a.size := by
    rw [size]
    decide
  have count : [4, 2].length = twin.size := rfl
  have answer := Arena.assignEquations_bijection count positive inside enough
  exact ⟨a, run, positive, inside, enough, answer.2.1 [1, 0] assigned⟩

end Assignment

end JetForm
