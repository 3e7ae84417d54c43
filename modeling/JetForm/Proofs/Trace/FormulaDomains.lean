import JetForm.Proofs.Trace.Domains
import JetForm.Trace.Formula

/-! # Domains of formulas

    A formula that is evaluated on the placeholders of a domain gives an expression
    on that domain with the breakpoints of all external functions in it.  The
    induction is on the formula: each operation adds up what its operands
    contribute, and an operation on values alone leaves nothing behind. -/

namespace JetForm

variable {d : Domain Float} {i : Nat}

open Operand Expression

/-! ## Functions of an array library -/

namespace ArrayFunction

theorem evaluate_computed (name : String) (inputs : List Operand) :
    Always (evaluate name inputs) IsComputed Error.IsOther := by
  unfold evaluate
  split
  · unfold evaluateUnary
    split
    · exact array_computed _
    · exact .throw nofun
  · unfold evaluateBinary
    split
    · exact array_computed _
    · exact array_computed _
    · exact array_computed _
    · split
      · exact arithmetic_computed _ rfl rfl
      · exact .throw nofun
    · exact .throw nofun
  · exact .throw nofun

/-- Operands and what they contribute. -/
abbrev Contribute (d : Domain Float) (i : Nat) (cs : List Contribution) (vs : List Operand) :
    Prop :=
  List.Forall₂ (Stands d i) cs vs

variable {cs : List Contribution} {vs : List Operand}

/-- A refusal that names what an expression depends on blames no domain. -/
theorem refuse_blames (e : Traced) {done : Operand → Prop} {lists : List (List Float)}
    {error : Option Nat → Error} (other : ∀ var, (error var).IsOther) :
    Always (do throw (error (← e.firstVar)) : Tracing Operand) done (Error.Blames d lists) :=
  (e.throw_after_firstVar other).mono (fun _ => id) fun _ other => other.blames

/-- A recorded call is a function of one operand or joins two of them. -/
theorem record_stands (name : String) (e : Traced) (stand : Contribute d i cs vs) :
    Always (record name e vs) (Stands d i (.join cs))
      (Error.Blames d (Contribution.join cs).lists) := by
  unfold record
  -- the operands stand in the order in which they were recorded
  split
  next op r _ =>
    obtain ⟨c, rest, first, none, rfl⟩ := List.forall₂_cons_right_iff.mp stand
    cases none
    apply (recorded_stands first (r.apply_beside op)).mono (fun _ => id)
    exact fun _ other => other.blames
  next op l r _ =>
    obtain ⟨c, rest, first, others, rfl⟩ := List.forall₂_cons_right_iff.mp stand
    obtain ⟨c', rest, second, none, rfl⟩ := List.forall₂_cons_right_iff.mp others
    cases none
    exact combine_stands op first second
  next => exact refuse_blames e nofun

/-- Without traced operands all contributions are those of values. -/
theorem traced_eq_false (stand : Contribute d i cs vs)
    (untraced : vs.findSome? Operand.traced? = none) : ∀ c ∈ cs, c.traced = false := by
  intro c hc
  obtain ⟨v, hv, stands⟩ := exists_mem_of_forall₂_left stand hc
  cases stands with
  | value _ => rfl
  | traced arena merged => cases List.findSome?_eq_none_iff.mp untraced _ hv

/-- Places that are left open contribute nothing. -/
theorem eq_nothing (stand : Contribute d i cs vs) (results : (vs.filter (!isOpen ·)).isEmpty) :
    ∀ c ∈ cs, c = ⟨false, []⟩ := by
  intro c hc
  obtain ⟨v, hv, stands⟩ := exists_mem_of_forall₂_left stand hc
  have left : isOpen v = true := by
    have empty := List.filter_eq_nil_iff.mp (List.isEmpty_iff.mp results) v hv
    simpa using empty
  -- an open place is no expression, and no function either
  cases stands with
  | value _ => cases v <;> first | rfl | cases left
  | traced arena merged => cases left

theorem invoke_stands (name : String) (count : Nat) (keyword : Bool)
    (stand : Contribute d i cs vs) :
    Always (invoke name count keyword vs) (Stands d i (.join cs))
      (Error.Blames d (Contribution.join cs).lists) := by
  unfold invoke
  apply Always.guarded nofun
  dsimp only
  split
  next e _ =>
    split_ifs with refuse
    · exact refuse_blames e nofun
    · -- the inputs are recorded, and nothing comes after them
      have open_ : ((vs.drop count).filter (!isOpen ·)).isEmpty = true := by
        simp only [Bool.or_eq_true, Bool.not_eq_true', not_or, Bool.not_eq_false] at refuse
        exact refuse.2
      have rest := eq_nothing (List.forall₂_drop count stand) open_
      rw [← List.take_append_drop count cs, Contribution.join_append rest]
      exact record_stands name e (List.forall₂_take count stand)
  next untraced =>
    apply computed_stands _ (traced_eq_false stand untraced)
    split_ifs
    · apply (evaluate_computed name _).mono (fun _ => id)
      exact fun _ other => other.blames
    · exact .throw nofun

/-- All methods but the call itself are refused. -/
theorem invokeMethod_stands (name : String) (count : Nat) (method : String)
    (stand : Contribute d i cs vs) :
    Always (invokeMethod name count method vs) (Stands d i (.join cs))
      (Error.Blames d (Contribution.join cs).lists) := by
  unfold invokeMethod
  dsimp only
  split
  · exact invoke_stands name count false stand
  -- a method that does not exist is refused before its operands are looked at
  case h_7 => exact .throw nofun
  all_goals
    apply Always.guarded nofun
    apply Always.guarded nofun
    split
    next e _ => exact refuse_blames e nofun
    next => exact .throw nofun

theorem call_stands (name : String) (style : CallStyle) (stand : Contribute d i cs vs) :
    Always (call name style vs) (Stands d i (.join cs))
      (Error.Blames d (Contribution.join cs).lists) := by
  unfold call
  dsimp only
  split
  · split
    · exact invokeMethod_stands _ 2 "reduce" stand
    · exact .throw nofun
  · split
    · exact invokeMethod_stands _ 2 "reduce" stand
    · exact .throw nofun
  · exact .throw nofun
  · exact invoke_stands _ _ false stand
  · exact invoke_stands _ _ true stand
  · exact invokeMethod_stands _ _ _ stand

end ArrayFunction

/-! ## Formulas -/

namespace Formula

mutual

/-- What a formula contributes where all names stand for placeholders. -/
def contribution (externals : List (String × External)) : Formula → Contribution
  | .symbol _ => ⟨true, []⟩
  | .literal v => ⟨false, v.carried⟩
  | .external name => ⟨false, ((externals.lookup name).bind External.breakpoints).toList⟩
  | .sign _ x | .elementary _ x | .diff x _ | .ownDiff x _ | .attribute _ x | .apply _ x =>
    .join [x.contribution externals]
  | .arithmetic _ l r | .combine _ l r =>
    .join [l.contribution externals, r.contribution externals]
  | .arrayFunction _ _ args => .join (contributions externals args)
  | .double _ | .wide _ | .list _ | .unruled .. | .convert .. | .elsewhere .. => ⟨false, []⟩

/-- The same for all formulas of a list. -/
def contributions (externals : List (String × External)) : List Formula → List Contribution
  | [] => []
  | f :: rest => f.contribution externals :: contributions externals rest

end

mutual

/-- The formula is made of names and values by operators, functions and derivatives. -/
def Composed : Formula → Prop
  | .symbol _ | .double _ | .wide _ | .external _ => True
  | .literal v => v.traced? = none
  | .sign _ x | .elementary _ x | .apply _ x => x.Composed
  | .diff x order | .ownDiff x order => x.Composed ∧ ∃ n, order = .literal (.number n)
  | .attribute name x => x.Composed ∧ isReport name = false
  | .arithmetic _ l r | .combine _ l r => l.Composed ∧ r.Composed
  | .arrayFunction _ _ args => ComposedAll args
  | .list _ | .unruled .. | .convert .. | .elsewhere .. => False

/-- The same for all formulas of a list. -/
def ComposedAll : List Formula → Prop
  | [] => True
  | f :: rest => f.Composed ∧ ComposedAll rest

end

end Formula

/-- All names stand for placeholders of one problem. -/
def Scope.OnDomain (d : Domain Float) (i : Nat) (s : Scope) : Prop :=
  ∀ entry ∈ s.names, ∃ e, entry.2 = .traced e ∧ e.arena = i ∧ e.domain = d

theorem Scope.OnDomain.lookup {s : Scope} (on : s.OnDomain d i) {name : String} {v : Operand}
    (found : s.names.lookup name = some v) : Stands d i ⟨true, []⟩ v := by
  obtain ⟨before, after, same, -⟩ := List.lookup_eq_some_iff.mp found
  obtain ⟨e, rfl, arena, domain⟩ := on (name, v) (by simp [same])
  exact .traced arena (domain ▸ Doubles.ranked.merged_nil e.domain)

namespace Formula

/-- A formula evaluates to an operand that contributes what the formula does, and fails because of
    a domain only for breakpoints that it would have. -/
def Stands (d : Domain Float) (i : Nat) (c : Contribution) (x : Tracing Operand) : Prop :=
  Always x (Operand.Stands d i c) (Error.Blames d (Contribution.join [c]).lists)

namespace Stands

variable {c c' : Contribution} {cs : List Contribution} {x : Tracing Operand}

/-- A result without an operation. -/
theorem of_other (known : Always x (Operand.Stands d i c) Error.IsOther) : Stands d i c x :=
  known.mono (fun _ => id) fun _ other => other.blames

/-- The result of an operation. -/
theorem of_join (known : Always x (Operand.Stands d i (.join cs))
    (Error.Blames d (Contribution.join cs).lists)) : Stands d i (.join cs) x := by
  unfold Stands
  rw [Contribution.join_join]
  exact known

/-- An operand fails for breakpoints that the operation has as well. -/
theorem operand (stands : Stands d i c x) (hc : c ∈ cs) :
    Always x (Operand.Stands d i c) (Error.Blames d (Contribution.join cs).lists) := by
  have among : [c] ⊆ cs := List.cons_subset.mpr ⟨hc, List.nil_subset _⟩
  exact stands.mono (fun _ => id) fun e blames => blames.mono (Contribution.join_subset among)

/-- An operation on one operand. -/
theorem one {f : Operand → Tracing Operand} (stands : Stands d i c x)
    (next : ∀ v, Operand.Stands d i c v →
      Always (f v) (Operand.Stands d i (.join [c])) Error.IsOther) :
    Stands d i (.join [c]) (x >>= f) := by
  apply of_join
  apply Always.bind stands
  exact fun v known => (next v known).mono (fun _ => id) fun _ other => other.blames

/-- An operation on two operands, which are evaluated from left to right. -/
theorem two {y : Tracing Operand} {f : Operand → Operand → Tracing Operand}
    (left : Stands d i c x) (right : Stands d i c' y)
    (next : ∀ u v, Operand.Stands d i c u → Operand.Stands d i c' v →
      Always (f u v) (Operand.Stands d i (.join [c, c']))
        (Error.Blames d (Contribution.join [c, c']).lists)) :
    Stands d i (.join [c, c']) (do
      let u ← x
      let v ← y
      f u v) := by
  -- whichever operand fails first, it fails for breakpoints of the whole
  apply of_join
  apply Always.bind (left.operand List.mem_cons_self)
  intro u hu
  apply Always.bind (right.operand (List.mem_cons_of_mem c List.mem_cons_self))
  exact fun v hv => next u v hu hv

end Stands

mutual

/-- Evaluation keeps account of breakpoints, operation by operation. -/
theorem eval_stands {s : Scope} (on : s.OnDomain d i) :
    (f : Formula) → f.Composed → Stands d i (f.contribution s.externals) (f.eval s)
  -- atoms contribute no breakpoints of their own
  | .symbol name, _ => by
    apply Stands.of_other
    unfold eval
    split
    next v found => exact .pure (on.lookup found)
    next => exact .throw nofun
  | .double x, _ => by
    apply Stands.of_other
    unfold eval
    exact .bind (SparesDomains.literal x) fun n _ =>
      .pure (Operand.Stands.value (v := .number n) rfl)
  | .wide x, _ => by
    apply Stands.of_other
    unfold eval
    exact .bind (SparesDomains.entryLiteral _) fun n _ =>
      .pure (Operand.Stands.value (v := .number n) rfl)
  | .literal v, untraced => by
    apply Stands.of_other
    unfold eval
    exact .pure (.value untraced)
  | .external name, _ => by
    apply Stands.of_other
    unfold eval contribution
    cases s.externals.lookup name with
    | some f => exact .pure (Operand.Stands.value (v := .external f) rfl)
    | none => exact .throw nofun
  | .sign g x, composed => by
    unfold eval contribution
    exact (eval_stands on x composed).one fun v known => sign_stands g known
  | .elementary op x, composed => by
    unfold eval contribution
    exact (eval_stands on x composed).one fun v known => elementary_stands op known
  | .apply name x, composed => by
    unfold eval contribution
    exact (eval_stands on x composed).one fun v known => ask_stands trivial known
  | .attribute name x, composed => by
    unfold eval contribution
    exact (eval_stands on x composed.1).one fun v known => ask_stands composed.2 known
  | .diff x order, composed => by
    obtain ⟨composed, n, rfl⟩ := composed
    unfold eval contribution
    apply (eval_stands on x composed).one
    intro v known
    unfold eval
    exact diff_stands n known
  | .ownDiff x order, composed => by
    obtain ⟨composed, n, rfl⟩ := composed
    unfold eval contribution
    apply (eval_stands on x composed).one
    intro v known
    unfold eval
    exact ask_stands ⟨n, rfl⟩ known
  | .arithmetic op l r, composed => by
    unfold eval contribution
    apply (eval_stands on l composed.1).two (eval_stands on r composed.2)
    exact fun u v hu hv => arithmetic_stands op hu hv
  | .combine op l r, composed => by
    unfold eval contribution
    apply (eval_stands on l composed.1).two (eval_stands on r composed.2)
    exact fun u v hu hv => combine_stands op hu hv
  | .arrayFunction name style args, composed => by
    unfold eval contribution
    apply Stands.of_join
    apply Always.bind (evalAll_stands on args composed)
    exact fun vs stand => ArrayFunction.call_stands name style stand

theorem evalAll_stands {s : Scope} (on : s.OnDomain d i) :
    (fs : List Formula) → ComposedAll fs →
      Always (evalAll s fs) (ArrayFunction.Contribute d i (contributions s.externals fs))
        (Error.Blames d (Contribution.join (contributions s.externals fs)).lists)
  | [], _ => by
    unfold evalAll
    exact .pure .nil
  | f :: rest, composed => by
    unfold evalAll contributions
    apply Always.bind ((eval_stands on f composed.1).operand List.mem_cons_self)
    intro v first
    -- the rest of the list has fewer breakpoints to fail for
    have among := Contribution.join_subset
      (List.subset_cons_self (f.contribution s.externals) (contributions s.externals rest))
    apply Always.bind ((evalAll_stands on rest composed.2).mono (fun _ => id)
      fun _ blames => blames.mono among)
    exact fun vs others => .pure (.cons first others)

end

end Formula

/-! ## Placeholders -/

namespace Placeholders

/-- Fresh placeholders share an arena and the domain. -/
theorem create_onDomain (count : Int) (d : Domain Float) :
    Always (create count d) (fun p => ∃ i, ∀ e ∈ p.time :: p.unknowns, e.arena = i ∧ e.domain = d)
      Error.IsOther := by
  have numbered : ∀ serial, SparesDomains (Workspace.check (Arena.create count serial)) := by
    intro serial
    unfold Arena.create
    split_ifs
    · exact .throw nofun
    · exact .pure _
  -- an arena is added, and it gets a time and its unknowns
  apply Always.bind SparesDomains.get
  intro w _
  apply Always.bind (numbered w.arenas.size)
  intro a _
  have pushed : ∀ f : Workspace → Workspace, SparesDomains (modify f : Tracing PUnit) :=
    fun _ _ => trivial
  apply Always.bind (pushed _)
  intro _ _
  show Always (Workspace.within w.arenas.size Arena.independent >>= fun h =>
    Traced.make w.arenas.size h d >>= _) _ _
  rw [← bind_assoc]
  apply Always.bind (Traced.make_within w.arenas.size d SparesDomains.independent)
  intro time known
  have unknown : ∀ k : Nat, Always (do
      Traced.make w.arenas.size (← Workspace.within w.arenas.size (Arena.leaf k)) d)
      (fun e => e.arena = w.arenas.size ∧ e.domain = d) Error.IsOther :=
    fun k => Traced.make_within w.arenas.size d (SparesDomains.leaf k)
  apply Always.bind (Always.mapM_all unknown (List.range count.toNat))
  intro unknowns all
  exact .pure ⟨w.arenas.size, List.forall_mem_cons.mpr ⟨known, all⟩⟩

end Placeholders

namespace Formula

/-- Evaluate a formula on fresh placeholders of a domain. -/
def onPlaceholders (externals : List (String × External)) (names : List String) (count : Int)
    (d : Domain Float) (f : Formula) : Tracing Operand := do
  let p ← Placeholders.create count d
  f.eval (({ externals } : Scope).withPlaceholders names p.time p.unknowns)

variable {externals : List (String × External)} {f : Formula} {lists : List (List Float)}

/-- An expression has the domain of the placeholders with all breakpoints that it contains, and
    exists only if they can be merged. -/
theorem onPlaceholders_merged (composed : f.Composed)
    (contribution : f.contribution externals = ⟨true, lists⟩) (names : List String) (count : Int)
    (d : Domain Float) :
    Always (f.onPlaceholders externals names count d)
      (fun v => ∃ e, v = .traced e ∧ d.Merged lists e.domain) (Error.Blames d lists) := by
  apply Always.bind ((Placeholders.create_onDomain count d).mono (fun _ => id)
    fun _ other => other.blames)
  intro p known
  obtain ⟨i, known⟩ := known
  have on : (({ externals } : Scope).withPlaceholders names p.time p.unknowns).OnDomain d i := by
    intro entry listed
    rw [Scope.withPlaceholders, List.append_nil, List.mem_reverse] at listed
    obtain ⟨e, he, same⟩ := List.mem_map.mp (List.of_mem_zip listed).2
    exact ⟨e, same.symm, known e he⟩
  have stands := eval_stands on f composed
  rw [Scope.withPlaceholders, contribution, Stands, Contribution.join_traced] at stands
  apply stands.mono _ fun _ => id
  intro v stands
  cases stands with
  | traced arena merged => exact ⟨_, rfl, merged⟩

/-- **Domains are unions.**  Domains are finite increasing lists; they are merged like sets if their
    ends are the same, and not at all otherwise.  So an expression that is made by operators,
    functions and derivatives from placeholders of one domain exists, as far as domains are
    concerned, if and only if all breakpoints that functions carry suit this domain.  Then its
    domain consists of all of them, whatever its shape and the order of its operands. -/
theorem domains_merge (composed : f.Composed)
    (contribution : f.contribution externals = ⟨true, lists⟩) (names : List String) (count : Int)
    (d : Domain Float) :
    Domain.UnionLaws Float ∧
    (∀ a b a' b', (Error.domain (.endsDiffer a b a' b')).kind = .configuration) ∧
    (∀ e : Domain Float, 2 ≤ e.points.length ∧ (∀ x ∈ e.points, x.isFinite = true) ∧
      e.points.Pairwise (· < ·)) ∧
    Always (f.onPlaceholders externals names count d)
      (fun v => ∃ e, v = .traced e ∧ d.Merged lists e.domain)
      (fun err => ∀ cause, err = .domain cause → ∃ points ∈ lists, d.Refuses points cause) ∧
    (∀ w, (∀ err w', f.onPlaceholders externals names count d w = .error err w' →
        ∃ cause, err = .domain cause) →
      ((∃ v w', f.onPlaceholders externals names count d w = .ok v w') ↔
        ∀ points ∈ lists, d.Suits points)) ∧
    ∀ (g : Formula) (others : List (List Float)), g.Composed →
      g.contribution externals = ⟨true, others⟩ →
      (∀ x, lists.flatten.contains x = others.flatten.contains x) →
      ∀ (w w' u u' : Workspace) (e e' : Traced),
        f.onPlaceholders externals names count d w = .ok (.traced e) u →
        g.onPlaceholders externals names count d w' = .ok (.traced e') u' →
        e.domain.Agrees e'.domain := by
  have merged := onPlaceholders_merged composed contribution names count d
  refine ⟨Doubles.ranked.unionLaws, fun _ _ _ _ => rfl, fun e => ?_, merged, ?_, ?_⟩
  · exact ⟨e.two_le_length, e.isFinite_of_mem, Doubles.ranked.lt_of_mem e⟩
  · intro w blamed
    constructor
    · rintro ⟨v, w', run⟩
      obtain ⟨e, -, merged⟩ := (merged w).of_ok run
      exact merged.suit
    · intro suit
      cases run : f.onPlaceholders externals names count d w with
      | ok v w' => exact ⟨v, w', rfl⟩
      | error err w' =>
        -- a failure for a domain would name a list that does not suit it
        obtain ⟨cause, named⟩ := blamed err w' run
        obtain ⟨points, listed, refuses⟩ := (merged w).of_error run cause named
        exact absurd (suit points listed) refuses.not_suits
  · intro g others composed' contribution' same w w' u u' e e' run run'
    have merged' := onPlaceholders_merged composed' contribution' names count d
    obtain ⟨_, ⟨rfl⟩, left⟩ := (merged w).of_ok run
    obtain ⟨_, ⟨rfl⟩, right⟩ := (merged' w').of_ok run'
    exact Doubles.ranked.merged_unique left right same

/-- The formula `f u' + sin(t - g)`. -/
def twoJumps : Formula :=
  .arithmetic .plus
    (.arithmetic .times (.external "f") (.diff (.symbol "u") (.literal (.number (.int 1)))))
    (.elementary .sin (.arithmetic .minus (.symbol "t") (.external "g")))

/-- The functions jump at different points of the unit interval. -/
theorem domains_merge_twoJumps :
    let externals := [("f", ⟨"f", .step 0.5 1 2, some [0, 0.5, 1]⟩),
      ("g", ⟨"g", .step 0.25 1 2, some [1, 0.25, 0]⟩)]
    twoJumps.Composed ∧ twoJumps.contribution externals = ⟨true, [[0, 0.5, 1], [1, 0.25, 0]]⟩ ∧
    ∀ w e w', twoJumps.onPlaceholders externals ["t", "u"] 1 .unitInterval w = .ok (.traced e) w' →
      e.domain.Consists [0, 1, 0, 0.5, 1, 1, 0.25, 0] := by
  have composed : twoJumps.Composed :=
    ⟨⟨trivial, trivial, _, rfl⟩, trivial, trivial⟩
  refine ⟨composed, rfl, fun w e w' run => ?_⟩
  obtain ⟨-, -, -, merged, -⟩ := domains_merge composed rfl ["t", "u"] 1 _
  obtain ⟨_, ⟨rfl⟩, merged⟩ := (merged w).of_ok run
  exact merged.consists

end Formula

end JetForm
