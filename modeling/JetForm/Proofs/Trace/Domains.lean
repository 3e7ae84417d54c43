import JetForm.Proofs.Numerics.Doubles
import JetForm.Proofs.Trace.Workspace
import JetForm.Proofs.Union
import JetForm.Trace.Expression

/-! # Domains of results

    A domain travels beside the tree of an expression.  Functions and derivatives
    pass it on, and two operands merge theirs.  So the result of an operation has
    all breakpoints that its operands have or carry, and no others.

    An operation can fail for many reasons.  It fails because of a domain only
    where a function carries points that cannot be merged with the domain of the
    placeholders, and then it has no result. -/

namespace JetForm

/-! ## What holds wherever a computation starts -/

/-- Wherever it starts, the computation ends with a result or an error of the given kind. -/
def Always {σ α : Type} (x : EStateM Error σ α) (done : α → Prop) (failed : Error → Prop) : Prop :=
  ∀ s, Ends x s (fun v _ => done v) fun e _ => failed e

namespace Always

variable {σ α β : Type} {done : α → Prop} {failed : Error → Prop}

theorem pure {v : α} (known : done v) : Always (Pure.pure v : EStateM Error σ α) done failed :=
  fun _ => known

theorem throw {e : Error} (known : failed e) :
    Always (MonadExcept.throw e : EStateM Error σ α) done failed :=
  fun _ => known

theorem bind {x : EStateM Error σ α} {f : α → EStateM Error σ β} {done' : β → Prop}
    (first : Always x done failed) (next : ∀ v, done v → Always (f v) done' failed) :
    Always (x >>= f) done' failed := by
  intro s
  apply Ends.bind
  exact (first s).weaken fun v s' known => next v known s'

theorem map {x : EStateM Error σ α} {f : α → β} {done' : β → Prop}
    (first : Always x (fun v => done' (f v)) failed) : Always (f <$> x) done' failed :=
  bind first fun _ known => pure known

theorem mono {x : EStateM Error σ α} {done' : α → Prop} {failed' : Error → Prop}
    (known : Always x done failed) (ok : ∀ v, done v → done' v)
    (error : ∀ e, failed e → failed' e) : Always x done' failed' :=
  fun s => (known s).mono (fun v _ => ok v) fun e _ => error e

/-- A condition that is checked first. -/
theorem guarded {b : Prop} [Decidable b] {e : Error} {f : α → EStateM Error σ β}
    {x : EStateM Error σ β} {done : β → Prop} (error : failed e) (known : Always x done failed) :
    Always (if b then MonadExcept.throw e >>= f else x) done failed := by
  split
  · exact fun _ => error
  · exact known

/-- A computation for each entry of a list. -/
theorem mapM_all {f : α → EStateM Error σ β} {done : β → Prop}
    (each : ∀ x, Always (f x) done failed) (l : List α) :
    Always (l.mapM f) (fun ys => ∀ y ∈ ys, done y) failed := by
  induction l with
  | nil => exact pure (List.forall_mem_nil _)
  | cons x l ih =>
    rw [List.mapM_cons]
    apply bind (each x)
    intro y first
    apply bind ih
    exact fun ys rest => pure (List.forall_mem_cons.mpr ⟨first, rest⟩)

theorem within {build : Building α} (built : Always build done failed) (i : Nat) :
    Always (Workspace.within i build) done failed := by
  intro w
  apply Ends.within
  exact built (w.arena i)

end Always

/-! ## Failures of other kinds -/

/-- The failure has nothing to do with domains. -/
def Error.IsOther (e : Error) : Prop :=
  ∀ cause, e ≠ .domain cause

/-- A computation that never fails because of a domain. -/
abbrev SparesDomains {σ α : Type} (x : EStateM Error σ α) : Prop :=
  Always x (fun _ => True) Error.IsOther

namespace SparesDomains

variable {σ α β : Type}

theorem get : SparesDomains (MonadState.get : EStateM Error σ σ) :=
  fun _ => trivial

theorem pure (v : α) : SparesDomains (Pure.pure v : EStateM Error σ α) :=
  Always.pure trivial

theorem throw {e : Error} (other : e.IsOther) :
    SparesDomains (MonadExcept.throw e : EStateM Error σ α) :=
  Always.throw other

theorem bind {x : EStateM Error σ α} {f : α → EStateM Error σ β} (first : SparesDomains x)
    (next : ∀ v, SparesDomains (f v)) : SparesDomains (x >>= f) :=
  Always.bind first fun v _ => next v

theorem intern (v : Value) : SparesDomains (Arena.intern v) := by
  intro a
  unfold Ends Arena.intern
  dsimp only
  cases a.valueIndex[v.key]? <;> trivial

theorem internNode (node : Node) (info : Info) : SparesDomains (Arena.internNode node info) := by
  intro a
  unfold Ends Arena.internNode
  dsimp only
  cases a.index[node]? with
  | some h => trivial
  | none =>
    dsimp only
    split_ifs
    · trivial
    · exact nofun

theorem checkNode (h : Nat) : SparesDomains (Arena.checkNode h) := by
  intro a
  unfold Ends Arena.checkNode
  split_ifs
  · trivial
  · exact nofun

theorem checkValue (v : Nat) : SparesDomains (Arena.checkValue v) := by
  intro a
  unfold Ends Arena.checkValue
  split_ifs
  · trivial
  · exact nofun

theorem independent : SparesDomains Arena.independent :=
  .bind .get fun _ => .internNode _ _

theorem leaf (var : Int) : SparesDomains (Arena.leaf var) := by
  refine .bind .get fun a => ?_
  split_ifs
  · exact .internNode _ _
  · exact .throw nofun

theorem unary (op : UnaryOp) (h : Nat) : SparesDomains (Arena.unary op h) :=
  .bind (.checkNode h) fun _ => .internNode _ _

theorem derivative (h k : Nat) : SparesDomains (Arena.derivative h k) := by
  unfold Arena.derivative
  split_ifs
  · exact .bind (.throw nofun) fun _ => .bind (.checkNode h) fun _ => .internNode _ _
  · exact .bind (.checkNode h) fun _ => .internNode _ _

theorem divisorCoeff (v : Value) : SparesDomains (Arena.divisorCoeff v) := by
  unfold Arena.divisorCoeff
  split
  · split_ifs
    · exact .pure _
    · split
      · exact .bind .get fun _ => .bind (.intern _) fun _ => .pure _
      · exact .throw nofun
  · exact .pure _

theorem binary (op : BinaryOp) (operands : Operands) :
    SparesDomains (Arena.binary op operands) := by
  unfold Arena.binary
  cases operands with
  | valueTree v t =>
    exact .bind (.checkValue v) fun _ => .bind (.checkNode t) fun _ => .bind .get
      fun _ => .internNode _ _
  | treeValue t v =>
    refine .bind (.checkValue v) fun _ => .bind (.checkNode t) fun _ => .bind .get fun a => ?_
    -- only a quotient of a bare tree computes with the value
    dsimp only
    split_ifs
    · cases op with
      | rdivide => exact .bind (.divisorCoeff _) fun _ => .internNode _ _
      | plus | minus | times | power => exact .internNode _ _
    · exact .internNode _ _
  | treeTree l r =>
    exact .bind (.checkNode l) fun _ => .bind (.checkNode r) fun _ => .internNode _ _

theorem nextSerial : SparesDomains Workspace.nextSerial :=
  fun _ => trivial

theorem literal (x : Float) : SparesDomains (Workspace.literal x) := by
  unfold Workspace.literal
  split
  · exact .bind .nextSerial fun _ => .pure _
  · exact .pure _

theorem entryLiteral (x : Entry) : SparesDomains (Workspace.entryLiteral x) := by
  unfold Workspace.entryLiteral
  split
  · exact .bind .nextSerial fun _ => .pure _
  · exact .pure _

theorem evaluated {α : Type} (x : Except Fault α) : SparesDomains (Workspace.evaluated x) := by
  cases x with
  | ok v => exact .pure v
  | error e => exact .throw nofun

end SparesDomains

/-! ## One operand -/

namespace Traced

/-- The expressions belong to one problem and have one domain. -/
structure Beside (e r : Traced) : Prop where
  arena : r.arena = e.arena
  domain : r.domain = e.domain

variable (e : Traced)

theorem firstVar_spares : SparesDomains e.firstVar :=
  .bind (.bind .get fun _ => .pure _) fun _ => .pure _

/-- A message that names what an expression depends on. -/
theorem throw_after_firstVar {α : Type} {done : α → Prop} {error : Option Nat → Error}
    (other : ∀ var, (error var).IsOther) :
    Always (do throw (error (← e.firstVar)) : Tracing α) done Error.IsOther :=
  .bind e.firstVar_spares fun var _ => .throw (other var)

/-- What is recorded belongs to the problem and has the domain that it is given. -/
theorem make_within {failed : Error → Prop} {build : Building Nat} (i : Nat) (d : Domain Float)
    (built : Always build (fun _ => True) failed) :
    Always (do make i (← Workspace.within i build) d)
      (fun r => r.arena = i ∧ r.domain = d) failed :=
  .bind (built.within i) fun _ _ _ => Ends.make ⟨rfl, rfl⟩

theorem unary_beside (op : UnaryOp) : Always (e.unary op) e.Beside Error.IsOther :=
  (make_within e.arena e.domain (SparesDomains.unary op e.handle)).mono
    (fun _ known => ⟨known.1, known.2⟩) fun _ => id

theorem apply_beside (name : String) : Always (e.apply name) e.Beside Error.IsOther := by
  unfold apply
  split
  · exact e.unary_beside _
  · exact e.throw_after_firstVar nofun

theorem diff_beside (n : Number) : Always (e.diff (.number n)) e.Beside Error.IsOther := by
  unfold diff
  dsimp only
  split
  · exact .pure ⟨rfl, rfl⟩
  · exact (make_within e.arena e.domain (SparesDomains.derivative e.handle _)).mono
      (fun _ known => ⟨known.1, known.2⟩) fun _ => id
  · rw [Operand.written]
    exact .bind (SparesDomains.pure _) fun _ _ => e.throw_after_firstVar nofun

end Traced

/-! ## Values -/

/-- The breakpoints that an untraced operand carries. -/
def Operand.carried : Operand → List (List Float)
  | .external f => f.breakpoints.toList
  | _ => []

/-- The breakpoints that a recorded value carries. -/
def Value.carried : Value → List (List Float)
  | .external f => f.breakpoints.toList
  | .number _ => []

/-- The failure is caused by a domain only if one of the lists cannot be merged with domain `d`,
    for the very cause that the failure names. -/
def Error.Blames (d : Domain Float) (lists : List (List Float)) (e : Error) : Prop :=
  ∀ cause, e = .domain cause → ∃ points ∈ lists, d.Refuses points cause

theorem Error.IsOther.blames {d : Domain Float} {lists : List (List Float)} {e : Error}
    (other : e.IsOther) : e.Blames d lists :=
  fun cause named => absurd named (other cause)

theorem Error.Blames.mono {d : Domain Float} {lists others : List (List Float)} {e : Error}
    (blames : e.Blames d lists) (listed : lists ⊆ others) : e.Blames d others := by
  intro cause named
  obtain ⟨points, there, refuses⟩ := blames cause named
  exact ⟨points, listed there, refuses⟩

namespace Expression

variable {d u : Domain Float} {lists : List (List Float)}

/-- A value carries what its operand carries. -/
theorem externalValue_carried (op : String) {v : Operand} (e : Traced)
    (untraced : v.traced? = none) :
    Always (externalValue op v e) (fun x => x.carried = v.carried) Error.IsOther := by
  have literal : ∀ x : Float, Always (Value.number <$> Workspace.literal x)
      (fun x => x.carried = []) Error.IsOther :=
    fun x => .bind (SparesDomains.literal x) fun _ _ => .pure rfl
  unfold externalValue
  split
  · split
    · exact .pure rfl
    · exact literal _
  · exact literal _
  · exact .pure rfl
  next other =>
    -- nothing but a function carries breakpoints
    have none : v.carried = [] := by
      cases v with
      | external f => exact absurd rfl (other f)
      | traced e => cases untraced
      | number _ | array _ | text _ | nothing | sequence _ => rfl
    split
    · exact .pure none.symm
    · exact e.throw_after_firstVar nofun

/-- Points that a value carries are merged if they suit, and nothing else goes wrong. -/
theorem extendDomain_merged (merged : d.Merged lists u) (v : Value) :
    Always (extendDomain u v) (d.Merged (lists ++ v.carried)) (Error.Blames d v.carried) := by
  unfold extendDomain
  split
  next name law points =>
    have listed : points ∈ (Value.external ⟨name, law, some points⟩).carried :=
      List.mem_singleton.mpr rfl
    cases created : Domain.create points with
    | error cause =>
      refine .throw fun cause' named => ?_
      cases named
      exact ⟨points, listed, .invalid created⟩
    | ok other =>
      show Always (Workspace.checkDomain (u.union other)) _ _
      -- the ends of the merged domain are still those of `d`
      by_cases same : d.SameEnds other
      · obtain ⟨t, union, merged'⟩ := Doubles.ranked.merged_create merged created same
        rw [union]
        exact .pure merged'
      · rw [Doubles.ranked.union_eq_error fun h =>
          same (Doubles.ranked.sameEnds_trans merged.ends h)]
        refine .throw fun cause named => ?_
        cases named
        exact ⟨points, listed, .differ _ _ created same⟩
  next plain =>
    have none : v.carried = [] := by
      cases v with
      | number _ => rfl
      | external f =>
        obtain ⟨name, law, points⟩ := f
        cases points with
        | none => rfl
        | some points => exact absurd rfl (plain name law points)
    rw [none, List.append_nil]
    exact .pure merged

end Expression

/-! ## Contributions -/

/-- What an operand contributes to a domain: the breakpoints that it has in addition to the common
    ones if it is traced, and those that it carries if it is a value. -/
structure Contribution where
  traced : Bool
  lists : List (List Float)

/-- The contribution of a result.  An operation on values is not recorded, so what they carry gets
    lost. -/
def Contribution.join (cs : List Contribution) : Contribution :=
  if cs.any Contribution.traced then ⟨true, cs.flatMap Contribution.lists⟩ else ⟨false, []⟩

namespace Contribution

theorem join_traced (lists : List (List Float)) : join [⟨true, lists⟩] = ⟨true, lists⟩ := by
  simp [join]

theorem join_traced_left (lists : List (List Float)) (c : Contribution) :
    join [⟨true, lists⟩, c] = ⟨true, lists ++ c.lists⟩ := by
  simp [join]

theorem join_traced_right (lists : List (List Float)) (c : Contribution) :
    join [c, ⟨true, lists⟩] = ⟨true, c.lists ++ lists⟩ := by
  simp [join]

theorem join_values {cs : List Contribution} (values : ∀ c ∈ cs, c.traced = false) :
    join cs = ⟨false, []⟩ := by
  have none : cs.any Contribution.traced = false := by
    rw [List.any_eq_false]
    intro c hc
    rw [values c hc]
    exact Bool.false_ne_true
  rw [join, none, if_neg Bool.false_ne_true]

theorem join_join (cs : List Contribution) : join [join cs] = join cs := by
  cases traced : cs.any Contribution.traced with
  | true =>
    have joined : join cs = ⟨true, cs.flatMap lists⟩ := by
      rw [join, if_pos traced]
    rw [joined, join_traced]
  | false =>
    have joined : join cs = ⟨false, []⟩ := by
      rw [join, traced, if_neg Bool.false_ne_true]
    rw [joined]
    rfl

/-- More operands contribute more. -/
theorem join_subset {cs cs' : List Contribution} (among : cs ⊆ cs') :
    (join cs).lists ⊆ (join cs').lists := by
  -- without an expression among them, the operands contribute nothing
  cases traced : cs.any Contribution.traced with
  | true =>
    have traced' : cs'.any Contribution.traced = true := by
      obtain ⟨c, hc, known⟩ := List.any_eq_true.mp traced
      exact List.any_eq_true.mpr ⟨c, among hc, known⟩
    rw [join, join, if_pos traced, if_pos traced']
    intro points listed
    obtain ⟨c, hc, listed⟩ := List.mem_flatMap.mp listed
    exact List.mem_flatMap.mpr ⟨c, among hc, listed⟩
  | false =>
    rw [join, traced, if_neg Bool.false_ne_true]
    exact List.nil_subset _

/-- Values that carry nothing do not matter. -/
theorem join_append {cs rest : List Contribution} (nothing : ∀ c ∈ rest, c = ⟨false, []⟩) :
    join (cs ++ rest) = join cs := by
  have values : rest.any Contribution.traced = false := by
    rw [List.any_eq_false]
    intro c hc
    rw [nothing c hc]
    exact Bool.false_ne_true
  have lists : rest.flatMap Contribution.lists = [] := by
    rw [List.flatMap_eq_nil_iff]
    intro c hc
    rw [nothing c hc]
  rw [join, List.any_append, values, Bool.or_false, List.flatMap_append, lists, List.append_nil,
    join]

end Contribution

/-- An operand of a problem on domain `d` whose expressions are in arena `i`.  Either it is traced,
    and its domain is `d` with the listed breakpoints, or it is a value that carries them. -/
inductive Operand.Stands (d : Domain Float) (i : Nat) : Contribution → Operand → Prop
  | traced {lists : List (List Float)} {e : Traced} (arena : e.arena = i)
    (merged : d.Merged lists e.domain) : Stands d i ⟨true, lists⟩ (.traced e)
  | value {v : Operand} (untraced : v.traced? = none) : Stands d i ⟨false, v.carried⟩ v

/-- The operand is a value that carries no breakpoints. -/
structure Operand.IsComputed (v : Operand) : Prop where
  untraced : v.traced? = none
  carries : v.carried = []

namespace Operand

variable {d : Domain Float} {i : Nat}

theorem IsComputed.stands {v : Operand} (computed : v.IsComputed) : Stands d i ⟨false, []⟩ v :=
  computed.carries ▸ .value computed.untraced

/-- The result of an operation on values. -/
theorem computed_stands {x : Tracing Operand} {failed : Error → Prop} {cs : List Contribution}
    (computed : Always x IsComputed failed) (values : ∀ c ∈ cs, c.traced = false) :
    Always x (Stands d i (.join cs)) failed := by
  rw [Contribution.join_values values]
  exact computed.mono (fun _ known => known.stands) fun _ => id

end Operand

/-! ## Values that are computed at once -/

theorem Operand.ofArray_computed (x : HeldArray) :
    Always (Operand.ofArray x) IsComputed Error.IsOther := by
  unfold ofArray
  split
  · exact .bind (SparesDomains.entryLiteral _) fun _ _ => .pure ⟨rfl, rfl⟩
  · exact .pure ⟨rfl, rfl⟩

namespace Expression

open Operand

theorem array_computed (x : Except Fault HeldArray) :
    Always (array x) IsComputed Error.IsOther :=
  .bind (SparesDomains.evaluated x) fun x _ => ofArray_computed x

theorem fresh_computed (n : Number) : Always (fresh n) IsComputed Error.IsOther := by
  unfold fresh
  split
  · exact .bind (SparesDomains.literal _) fun _ _ => .pure ⟨rfl, rfl⟩
  · exact .bind (SparesDomains.entryLiteral _) fun _ _ => .pure ⟨rfl, rfl⟩
  · exact .pure ⟨rfl, rfl⟩

theorem Sign.apply_computed (g : Sign) (n : Number) :
    Always (g.apply n) IsComputed Error.IsOther := by
  refine .bind (SparesDomains.evaluated _) fun v _ => ?_
  cases g with
  | plus => exact .pure ⟨rfl, rfl⟩
  | minus | magnitude => exact fresh_computed v

theorem sequenceArithmetic_computed (op : BinaryOp) (l r : Operand) :
    Always (sequenceArithmetic op l r) IsComputed Error.IsOther := by
  unfold sequenceArithmetic
  dsimp only
  split <;> try split
  all_goals first | exact .pure ⟨rfl, rfl⟩ | exact .throw nofun

/-! ## Operations on one operand -/

variable {d : Domain Float} {i : Nat} {c : Contribution} {x : Operand}

/-- A recorded operation passes the domain on. -/
theorem recorded_stands {e : Traced} {operation : Tracing Traced}
    (stands : Stands d i c (.traced e)) (beside : Always operation e.Beside Error.IsOther) :
    Always (Operand.traced <$> operation) (Stands d i (.join [c])) Error.IsOther := by
  cases stands with
  | value untraced => cases untraced
  | traced arena merged =>
    rw [Contribution.join_traced]
    apply Always.map
    apply beside.mono _ fun _ => id
    intro r known
    refine .traced (known.arena.trans arena) ?_
    rw [known.domain]
    exact merged

theorem sign_stands (g : Sign) (stands : Stands d i c x) :
    Always (sign g x) (Stands d i (.join [c])) Error.IsOther := by
  cases stands with
  | traced arena merged => exact recorded_stands (.traced arena merged) (Traced.unary_beside _ _)
  | value untraced =>
    apply computed_stands _ (by simp)
    cases x with
    | traced e => cases untraced
    | number n => exact g.apply_computed n
    | array y => exact array_computed _
    | external _ | text _ | nothing | sequence _ => exact .throw nofun

theorem elementary_stands (op : UnaryOp) (stands : Stands d i c x) :
    Always (elementary op x) (Stands d i (.join [c])) Error.IsOther := by
  -- a fault of the function keeps its words
  have checked : ∀ y : Except Fault HeldArray,
      Always (Operand.array <$> Workspace.check (y.mapError .fault)) IsComputed Error.IsOther := by
    intro y
    cases y with
    | ok y => exact .pure ⟨rfl, rfl⟩
    | error e => exact .throw nofun
  cases stands with
  | traced arena merged => exact recorded_stands (.traced arena merged) (Traced.unary_beside _ _)
  | value untraced =>
    apply computed_stands _ (by simp)
    cases x with
    | traced e => cases untraced
    | number n => exact checked _
    | array y => exact checked _
    | external _ | text _ | nothing | sequence _ =>
      unfold elementary
      dsimp only
      split_ifs <;> exact .throw nofun

theorem diff_stands (n : Number) (stands : Stands d i c x) :
    Always (diff x (.number n)) (Stands d i (.join [c])) Error.IsOther := by
  cases x with
  | traced e => exact recorded_stands stands (e.diff_beside n)
  | number _ | array _ | external _ | text _ | nothing | sequence _ => exact .throw nofun

/-- Does the attribute with the given name tell about an expression instead of computing with
    it? -/
def isReport (name : String) : Bool :=
  ["__repr__", "__str__", "_first_var"].contains name

/-- What is asked of an operand gives another one by an operation. -/
def Attribute.Computes : Attribute → Prop
  | .derivative order => ∃ n, order = .number n
  | .function _ => True
  | .method name => isReport name = false

theorem ask_stands {a : Attribute} (computes : a.Computes) (stands : Stands d i c x) :
    Always (ask x a) (Stands d i (.join [c])) Error.IsOther := by
  cases x with
  | number _ | array _ | external _ | text _ | nothing | sequence _ => exact .throw nofun
  | traced e =>
    cases a with
    | derivative order =>
      obtain ⟨n, rfl⟩ := computes
      exact recorded_stands stands (e.diff_beside n)
    | function name => exact recorded_stands stands (e.apply_beside name)
    | method name =>
      have unary := fun op => recorded_stands stands (e.unary_beside op)
      have refused : ∀ op, Always (e.refuse op) (Stands d i (.join [c])) Error.IsOther :=
        fun op => e.throw_after_firstVar nofun
      show Always (tracedAttribute name e) _ _
      unfold tracedAttribute
      split
      case h_2 => exact recorded_stands stands (e.diff_beside _)
      case h_11 | h_12 | h_13 => cases computes
      case h_14 =>
        split_ifs
        · exact .throw nofun
        · exact .throw nofun
      all_goals first | exact unary _ | exact refused _

/-! ## Operations on two operands -/

variable {c' : Contribution} {y : Operand}

theorem binary_spares (op : String) (operands : Operands) : SparesDomains (binary op operands) := by
  unfold binary
  split
  · exact SparesDomains.binary _ _
  · exact .throw nofun

/-- A value is joined to an expression, whose domain it extends. -/
theorem joinValue_stands (op : String) {e : Traced} {lists : List (List Float)}
    (operands : Nat → Operands) (arena : e.arena = i) (merged : d.Merged lists e.domain)
    (untraced : x.traced? = none) :
    Always (joinValue op x e operands)
      (fun r => r.arena = i ∧ d.Merged (lists ++ x.carried) r.domain)
      (Error.Blames d x.carried) := by
  have blames : ∀ err : Error, err.IsOther → err.Blames d x.carried :=
    fun _ other => other.blames
  apply Always.bind ((externalValue_carried op e untraced).mono (fun _ => id) blames)
  intro value carried
  have recorded : SparesDomains (Workspace.within e.arena do
      binary op (operands (← Arena.intern value))) :=
    Always.within (.bind (SparesDomains.intern value) fun _ _ => binary_spares op _) _
  apply Always.bind (recorded.mono (fun _ => id) blames)
  intro h _
  rw [← carried]
  apply Always.bind (extendDomain_merged merged value)
  intro t merged'
  exact fun w => Ends.make ⟨arena, merged'⟩

theorem combine_values (op : String) (left : x.traced? = none) (right : y.traced? = none) :
    combine op x y = throw (.untracedOperands op) := by
  unfold combine
  split
  case h_4 => rfl
  case h_1 | h_2 => cases left
  case h_3 => cases right

theorem combine_value_left (op : String) (r : Traced) (untraced : x.traced? = none) :
    combine op x (.traced r) = joinValue op x r fun value => .valueTree value r.handle := by
  cases x with
  | traced e => cases untraced
  | number _ | array _ | external _ | text _ | nothing | sequence _ => rfl

theorem combine_value_right (op : String) (l : Traced) (untraced : x.traced? = none) :
    combine op (.traced l) x = joinValue op x l fun value => .treeValue l.handle value := by
  cases x with
  | traced e => cases untraced
  | number _ | array _ | external _ | text _ | nothing | sequence _ => rfl

/-- Operands of one problem share an arena, so nothing is copied; and domains that come from one
    domain can always be merged. -/
theorem combine_stands (op : String) (left : Stands d i c x) (right : Stands d i c' y) :
    Always (Operand.traced <$> combine op x y) (Stands d i (.join [c, c']))
      (Error.Blames d (Contribution.join [c, c']).lists) := by
  cases left with
  | value untraced =>
    cases right with
    | value untraced' =>
      -- without a traced operand there is nothing to record
      rw [combine_values op untraced untraced']
      exact .throw nofun
    | @traced _ r arena merged =>
      rw [combine_value_left op r untraced, Contribution.join_traced_right]
      apply Always.map
      apply (joinValue_stands op _ arena merged untraced).mono
      · exact fun t known => .traced known.1 (known.2.perm List.perm_append_comm)
      · exact fun err blames => blames.mono (List.subset_append_left _ _)
  | @traced _ l arena merged =>
    rw [Contribution.join_traced_left]
    apply Always.map
    cases right with
    | value untraced' =>
      rw [combine_value_right op l untraced']
      apply (joinValue_stands op _ arena merged untraced').mono
      · exact fun t known => .traced known.1 known.2
      · exact fun err blames => blames.mono (List.subset_append_right _ _)
    | @traced _ r arena' merged' =>
      have handle : bring l.arena r = pure r.handle := if_pos (arena'.trans arena.symm)
      obtain ⟨u, union, merged⟩ := Doubles.ranked.merged_union merged merged'
      have recorded := Traced.make_within l.arena u (binary_spares op (.treeTree l.handle r.handle))
      show Always (bring l.arena r >>= fun _ => _) _ _
      rw [handle, union]
      apply recorded.mono
      · intro t known
        refine .traced (known.1.trans arena) ?_
        rw [known.2]
        exact merged
      · exact fun _ other => other.blames

theorem arithmetic_computed (op : BinaryOp) (left : x.traced? = none) (right : y.traced? = none) :
    Always (arithmetic op x y) IsComputed Error.IsOther := by
  unfold arithmetic
  split
  · cases left
  · cases right
  · exact .bind (SparesDomains.evaluated _) fun _ _ => fresh_computed _
  · exact array_computed _
  · exact array_computed _
  · exact array_computed _
  · exact sequenceArithmetic_computed op _ _

theorem arithmetic_stands (op : BinaryOp) (left : Stands d i c x) (right : Stands d i c' y) :
    Always (arithmetic op x y) (Stands d i (.join [c, c']))
      (Error.Blames d (Contribution.join [c, c']).lists) := by
  have recorded := combine_stands op.name left right
  cases left with
  | traced _ _ => exact recorded
  | value untraced =>
    cases right with
    | @traced _ r _ _ =>
      have same : arithmetic op x (.traced r) =
          Operand.traced <$> combine op.name x (.traced r) := by
        cases x <;> rfl
      rw [same]
      exact recorded
    | value untraced' =>
      apply computed_stands _ (by simp)
      apply (arithmetic_computed op untraced untraced').mono (fun _ => id)
      exact fun _ other => other.blames

end Expression

end JetForm
