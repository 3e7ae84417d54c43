import JetForm.Proofs.Differential.Rational
import JetForm.Proofs.Program.Faults
import JetForm.Proofs.Tree.Halves
import JetForm.Proofs.Tree.Sharing
import JetForm.Reduction.Coefficient
import JetForm.Reduction.Options

/-! # Whether a coefficient is accepted

    A leading coefficient is compiled and sampled with doubles.  Two coefficients
    with the same tree are accepted or refused together, in whatever arenas they
    are, since their functions have the same values and the same gaps. -/

namespace JetForm

/-! ## Computations without their errors -/

section

variable {ε ε' α β : Type}

theorem Except.toOption_bind (x : Except ε α) (f : α → Except ε β) :
    (x >>= f).toOption = x.toOption.bind fun v => (f v).toOption := by
  cases x <;> rfl

theorem Except.toOption_mapError (f : ε → ε') (x : Except ε α) :
    (x.mapError f).toOption = x.toOption := by
  cases x <;> rfl

theorem Except.toOption_mapM {f g : α → Except ε β}
    (same : ∀ x, (f x).toOption = (g x).toOption) (l : List α) :
    (l.mapM f).toOption = (l.mapM g).toOption := by
  induction l with
  | nil => rfl
  | cons x l ih => simp only [List.mapM_cons, toOption_bind, same, ih]

end

/-! ## Functions -/

/-- No operation has the name of a coefficient. -/
theorem UnaryOp.name_ne_coefficient (op : UnaryOp) (s : String) : op.name ≠ "coeff_" ++ s := by
  intro eq
  have first := congrArg (fun s => s.toList.take 6) eq
  simp only [String.toList_append] at first
  cases op <;> simp [UnaryOp.name] at first

/-- A result of double precision depends on nothing but the entry. -/
theorem Evaluation.double_result_congr {x y : Cell Entry}
    (same : x.toEntry Entries.single = y.toEntry Entries.single) :
    Evaluation.double.result x = Evaluation.double.result y := by
  dsimp only [Evaluation.double]
  rw [same]

/-- The functions have the same values and the same gaps. -/
structure ScalarFunction.Alike (f g : ScalarFunction) : Prop where
  entries : ∀ t, (f.entries t none).toOption = (g.entries t none).toOption
  fault : f.fault?.isSome = g.fault?.isSome
  eval : ∀ t, f.eval .double t = g.eval .double t

/-- The value of a tree that is a plain number. -/
def Tree.constantValue : Tree → Except Error (Option Float)
  | .constant (.number n) => some <$> n.toDouble.mapError .fault
  | _ => .ok none

theorem Tree.constantValue_bare (t : Tree) : t.bare.constantValue = t.constantValue := by
  cases t with
  | constant v =>
    cases v with
    | number n => exact congrArg (fun x => some <$> x.mapError Error.fault) n.toDouble_bare
    | external f => rfl
  | leaf | independent | slot | unary | valueTree | treeValue | treeTree | derivative => rfl

namespace LeadingCoefficient

variable {a b : Arena} {g h : Nat}

theorem constantValue_tree (inside : h < a.count) :
    constantValue a h = (a.tree h).constantValue := by
  obtain ⟨node, hn⟩ := Arena.node?_isSome.mpr inside
  unfold constantValue
  rw [hn, Arena.tree_eq hn]
  cases node with
  | constant v =>
    show _ = Tree.constantValue (.constant (a.value v))
    dsimp only
    cases a.value v <;> rfl
  | leaf | independent | slot | unary | derivative => rfl
  | binary op operands => cases operands <;> rfl

/-- A function with the name of a coefficient does not call itself. -/
theorem isShadowing_of_name {f : ScalarFunction} {var : Nat} (name : f.name = s!"coeff_{var}") :
    f.isShadowing = false := by
  unfold ScalarFunction.isShadowing
  rw [Array.any_eq_false']
  intro i _
  cases i with
  | unary op x =>
    rw [name]
    exact Bool.eq_false_iff.mp (beq_eq_false_iff_ne.mpr (op.name_ne_coefficient (toString var)))
  | binary => simp

/-- Programs of one tree are alike. -/
theorem alike_of_ofTrees (hg : g < a.count) (hh : h < b.count)
    (same : (a.tree g).bare = (b.tree h).bare) {f f' : ScalarFunction}
    (left : Program.ofTrees a [g] = .ok f.program) (right : Program.ofTrees b [h] = .ok f'.program)
    {var : Nat} (name : f.name = s!"coeff_{var}") (name' : f'.name = s!"coeff_{var}") :
    f.Alike f' := by
  -- values that are equal up to their spelling denote the same cell
  have cell : ∀ {ρ : Type} (E : Entries ρ) (time : ρ) (state : Int → Cell ρ),
      (a.denote (Cell.reading E time state Program.ownSlot) g).toEntry E =
        (b.denote (Cell.reading E time state Program.ownSlot) h).toEntry E := by
    intro ρ E time state
    rw [← Cell.toEntry_bare, Arena.denote, Tree.bare_denote E time state _ same,
      Cell.toEntry_bare, Arena.denote]
  have outputs : ∀ {ρ : Type} (E : Entries ρ) (time : ρ) (state : Int → Cell ρ),
      (f.program.entries E (Cell.meaning E time state)).toOption =
        (f'.program.entries E (Cell.meaning E time state)).toOption := by
    intro ρ E time state
    rw [Program.toOption_entries E time state (by simpa using hg) left,
      Program.toOption_entries E time state (by simpa using hh) right, List.mapM_cons,
      List.mapM_cons, cell]
    rfl
  constructor
  · intro t
    unfold ScalarFunction.entries
    rw [isShadowing_of_name name, isShadowing_of_name name']
    simp only [Bool.false_eq_true, if_false]
    rw [Except.toOption_bind, Except.toOption_bind, outputs]
  · unfold ScalarFunction.fault?
    have known := outputs Entries.single (.real 0) fun _ => .fault .noState
    revert known
    cases f.program.entries .single (Cell.meaning .single (.real 0) fun _ => .fault .noState) <;>
      cases f'.program.entries .single
        (Cell.meaning .single (.real 0) fun _ => .fault .noState) <;> simp [Except.toOption]
  · intro t
    unfold ScalarFunction.eval
    rw [(Program.ofTrees_sourced (by simpa using hg) left).1,
      (Program.ofTrees_sourced (by simpa using hh) right).1]
    exact Evaluation.double_result_congr (cell Entries.single (.real t) fun _ => .entry (.real 0))

/-! ## Coefficients -/

/-- The coefficients belong to the same derivative, and their functions are alike. -/
structure Alike (c c' : LeadingCoefficient) : Prop where
  var : c.var = c'.var
  order : c.order = c'.order
  constant : c.constant = c'.constant
  function : c.function.Alike c'.function

/-- A coefficient is made of a program, of a name, and of the value of the node. -/
theorem create_iff {var order : Nat} {c : LeadingCoefficient} :
    create a var order h = .ok c ↔
      Program.ofTrees a [h] = .ok c.function.program ∧ constantValue a h = .ok c.constant ∧
        c.function.name = s!"coeff_{var}" ∧ c.var = var ∧ c.order = order ∧ c.handle = h := by
  unfold create
  constructor
  · intro created
    obtain ⟨p, flattened, created⟩ := exists_ok_of_bind created
    obtain ⟨f, one, created⟩ := exists_ok_of_bind created
    obtain ⟨x, constant, created⟩ := exists_ok_of_bind created
    cases created
    unfold ScalarFunction.create at one
    split at one
    next =>
      cases one
      exact ⟨flattened, constant, rfl, rfl, rfl, rfl⟩
    next => cases one
  · obtain ⟨v, o, g, ⟨p, name, one⟩, x⟩ := c
    dsimp only
    rintro ⟨flattened, constant, named, rfl, rfl, rfl⟩
    subst named
    rw [flattened]
    show (ScalarFunction.create p _ >>= _) = _
    unfold ScalarFunction.create
    rw [dif_pos one]
    show (constantValue a g >>= _) = _
    rw [constant]
    rfl

/-- A plain number is the number of a constant node. -/
theorem exists_number_of_constantValue {x : Float} (known : constantValue a h = .ok (some x)) :
    ∃ v n, a.node? h = some (.constant v) ∧ a.value v = .number n ∧ n.toDouble = .ok x := by
  unfold constantValue at known
  split at known
  next v node =>
    split at known
    next n number =>
      cases double : n.toDouble with
      | error e =>
        rw [double] at known
        cases known
      | ok y =>
        rw [double] at known
        cases known
        exact ⟨v, n, node, number, double⟩
    next => cases known
  next => cases known

/-- Coefficients that have been made from equal trees are alike. -/
theorem alike_of_create (hg : g < a.count) (hh : h < b.count)
    (same : (a.tree g).bare = (b.tree h).bare) {var order : Nat} {c c' : LeadingCoefficient}
    (created : create a var order g = .ok c) (created' : create b var order h = .ok c') :
    c.Alike c' := by
  obtain ⟨flattened, constant, name, hvar, horder, -⟩ := create_iff.mp created
  obtain ⟨flattened', constant', name', hvar', horder', -⟩ := create_iff.mp created'
  have value : constantValue a g = constantValue b h := by
    rw [constantValue_tree hg, constantValue_tree hh, ← Tree.constantValue_bare, same,
      Tree.constantValue_bare]
  refine ⟨hvar.trans hvar'.symm, horder.trans horder'.symm, ?_,
    alike_of_ofTrees hg hh same flattened flattened' name name'⟩
  rw [constant, constant'] at value
  exact Except.ok.inj value

/-- What has been made from a lowered tree is made from it in every arena. -/
theorem exists_create (hg : g < a.count) (hh : h < b.count)
    (same : (a.tree g).bare = (b.tree h).bare) (low : (b.expression h).lowered 0 = true)
    {var order : Nat} {c : LeadingCoefficient} (created : create a var order g = .ok c) :
    ∃ c', create b var order h = .ok c' := by
  have roots : ∀ r ∈ [h], r < b.count := by simpa using hh
  obtain ⟨p, flattened, one, -⟩ := Program.ofTrees_lowered roots (by simpa using low)
  obtain ⟨-, constant, -⟩ := create_iff.mp created
  rw [constantValue_tree hg, ← Tree.constantValue_bare, same, Tree.constantValue_bare,
    ← constantValue_tree hh] at constant
  exact ⟨⟨var, order, h, ⟨p, s!"coeff_{var}", one⟩, c.constant⟩,
    create_iff.mpr ⟨flattened, constant, rfl, rfl, rfl, rfl⟩⟩

/-- Coefficients that are alike are accepted or refused together. -/
theorem Alike.check {c c' : LeadingCoefficient} (alike : c.Alike c') (d : Domain Float)
    (tolerance : Float) (count : Nat) :
    (c.check d tolerance count).toOption = (c'.check d tolerance count).toOption := by
  have pieces : (c.pieces d count).toOption = (c'.pieces d count).toOption := by
    apply Except.toOption_mapM
    intro x
    rw [Except.toOption_bind, Except.toOption_bind, alike.function.entries]
  -- the search is one function of the pieces and the evaluator, so only the fault is left
  have found : (c.singularity? d tolerance count).toOption =
      (c'.singularity? d tolerance count).toOption := by
    unfold singularity?
    rw [alike.constant, alike.order]
    cases c'.constant with
    | some x => rfl
    | none =>
      dsimp only
      rw [Except.toOption_bind, Except.toOption_bind, pieces]
      congr 1
      funext samples
      have same : minimise (c.function.eval .double) = minimise (c'.function.eval .double) := by
        rw [funext alike.function.eval]
      -- the two faults may differ in kind; what matters here is that both sides stop or neither does
      have stopped := alike.function.fault
      cases left : c.function.fault? with
      | none =>
        rw [left] at stopped
        cases right : c'.function.fault? with
        | none => rw [same]
        | some f =>
          rw [right] at stopped
          cases stopped
      | some e =>
        rw [left] at stopped
        cases right : c'.function.fault? with
        | none =>
          rw [right] at stopped
          cases stopped
        | some f =>
          dsimp only
          split <;> rfl
  unfold LeadingCoefficient.check
  rw [Except.toOption_bind, Except.toOption_bind, Except.toOption_mapError,
    Except.toOption_mapError, found, alike.constant, alike.var]

end LeadingCoefficient

/-! ## The same coefficient in several arenas -/

/-- Trees that agree up to the keys of their constants agree up to their origins if
    their constants do. -/
theorem Tree.bare_eq_of_keyed {s t : Tree} (same : s.keyed = t.keyed)
    (values : ∀ u ∈ s.values, ∀ v ∈ t.values, u.key = v.key → u.bare = v.bare) :
    s.bare = t.bare := by
  -- induction on the first tree: equal keyed trees have the same constructor at each node, so the
  -- off-diagonal pairs close at once and only the values have to be looked up in the hypothesis
  induction s generalizing t with
  | leaf | independent | slot =>
    cases t with
    | leaf | independent | slot => exact same
    | constant | unary | valueTree | treeValue | treeTree | derivative => cases same
  | constant u =>
    cases t with
    | constant v =>
      have key := Tree.constant.inj same
      exact congrArg Tree.constant (values u (by simp [Tree.values]) v (by simp [Tree.values]) key)
    | leaf | independent | slot | unary | valueTree | treeValue | treeTree | derivative =>
      cases same
  | unary op c ih =>
    cases t with
    | unary op' c' =>
      obtain ⟨rfl, child⟩ := Tree.unary.inj same
      exact congrArg (Tree.unary op) (ih child values)
    | leaf | independent | slot | constant | valueTree | treeValue | treeTree | derivative =>
      cases same
  | derivative c k ih =>
    cases t with
    | derivative c' k' =>
      obtain ⟨child, rfl⟩ := Tree.derivative.inj same
      exact congrArg (Tree.derivative · k) (ih child values)
    | leaf | independent | slot | constant | unary | valueTree | treeValue | treeTree =>
      cases same
  | valueTree op u c ih =>
    cases t with
    | valueTree op' v c' =>
      obtain ⟨rfl, key, child⟩ := Tree.valueTree.inj same
      have first := values u (by simp [Tree.values]) v (by simp [Tree.values]) key
      have rest := ih child fun u hu v hv =>
        values u (List.mem_cons_of_mem _ hu) v (List.mem_cons_of_mem _ hv)
      simp only [bare, first, rest]
    | leaf | independent | slot | constant | unary | treeValue | treeTree | derivative =>
      cases same
  | treeValue op c u ih =>
    cases t with
    | treeValue op' c' v =>
      obtain ⟨rfl, child, key⟩ := Tree.treeValue.inj same
      have first := values u (by simp [Tree.values]) v (by simp [Tree.values]) key
      have rest := ih child fun u hu v hv =>
        values u (List.mem_cons_of_mem _ hu) v (List.mem_cons_of_mem _ hv)
      simp only [bare, first, rest]
    | leaf | independent | slot | constant | unary | valueTree | treeTree | derivative =>
      cases same
  | treeTree op l r ihl ihr =>
    cases t with
    | treeTree op' l' r' =>
      obtain ⟨rfl, left, right⟩ := Tree.treeTree.inj same
      have first := ihl left fun u hu v hv =>
        values u (List.mem_append_left _ hu) v (List.mem_append_left _ hv)
      have second := ihr right fun u hu v hv =>
        values u (List.mem_append_right _ hu) v (List.mem_append_right _ hv)
      simp only [bare, first, second]
    | leaf | independent | slot | constant | unary | valueTree | treeValue | derivative =>
      cases same

@[simp] theorem Tree.values_keyed (t : Tree) : t.keyed.values = t.values.map Value.key := by
  induction t <;> simp_all [keyed, Tree.values]

/-- The constants below a handle are stored. -/
theorem Arena.stored_of_values {a : Arena} (wf : a.WellFormed) {h : Nat} (inside : h < a.count) :
    ∀ v ∈ (a.tree h).values, ∃ i < a.values.size, a.value i = v := by
  refine node_induction inside ?_
  intro h node hn child
  have own : ∀ i ∈ node.values, ∃ j < a.values.size, a.value j = a.value i :=
    fun i hi => ⟨i, wf.values h node hn i hi, rfl⟩
  rw [tree_eq hn]
  cases node with
  | leaf | independent | slot => simp [treeOf, Tree.values]
  | constant v => simpa [treeOf, Tree.values, Node.values] using own
  | unary op c => exact child c (by simp [Node.children])
  | derivative c k => exact child c (by simp [Node.children])
  | binary op operands =>
    cases operands with
    | valueTree v t | treeValue t v =>
      intro u hu
      rcases List.mem_cons.mp hu with rfl | hu
      · exact own v (by simp [Node.values, Operands.values])
      · exact child t (by simp [Node.children, Operands.trees]) u hu
    | treeTree l r =>
      intro u hu
      rcases List.mem_append.mp hu with hu | hu
      · exact child l (by simp [Node.children, Operands.trees]) u hu
      · exact child r (by simp [Node.children, Operands.trees]) u hu

/-- Only one number has the key of one. -/
theorem Value.bare_of_key_one {v : Value} (one : v.key = .number (.ofFloat 1)) :
    v.bare = .number (.ofFloat 1) := by
  cases v with
  | external f => cases one
  | number n =>
    cases n with
    | double x origin =>
      have same : Number.canonicalZero x = 1 := congrArg Number.toFloat (Value.number.inj one)
      unfold Number.canonicalZero at same
      split at same
      · exact absurd same (by decide)
      · exact congrArg (fun x => Value.number (.ofFloat x)) same
    | bool | int | complex | wide => cases one

namespace Arena

variable {a b c : Arena}

/-- The constant behind a key is the same in all arenas that have grown out of this
    one. -/
def Settles (a : Arena) (k : Value) : Prop :=
  k = .number (.ofFloat 1) ∨ ∃ i < a.values.size, (a.value i).key = k

/-- Expressions whose constants are settled have the same trees. -/
theorem bare_tree_eq (wfb : b.WellFormed) (wfc : c.WellFormed) (left : a.Extends b)
    (right : a.Extends c) {g h : Nat} (hg : g < b.count) (hh : h < c.count)
    (same : b.expression g = c.expression h) (settled : ∀ k ∈ (b.expression g).values, a.Settles k) :
    (b.tree g).bare = (c.tree h).bare := by
  apply Tree.bare_eq_of_keyed same
  intro u hu v hv key
  have listed : u.key ∈ (b.expression g).values := by
    rw [expression, Tree.values_keyed]
    exact List.mem_map_of_mem hu
  rcases settled u.key listed with one | ⟨m, hm, eq⟩
  · rw [Value.bare_of_key_one one, Value.bare_of_key_one (key ▸ one)]
  · obtain ⟨i, hi, rfl⟩ := stored_of_values wfb hg u hu
    obtain ⟨j, hj, rfl⟩ := stored_of_values wfc hh v hv
    obtain ⟨hmb, sameb⟩ := left.value m hm
    obtain ⟨hmc, samec⟩ := right.value m hm
    have first := value_injective wfb hi hmb (by rw [sameb, eq])
    have second := value_injective wfc hj hmc (by rw [samec, eq, key])
    rw [first, second, sameb, samec]

end Arena

namespace LeadingCoefficient

variable {base : Arena} {var order : Nat} {t : Tree} {c c' : LeadingCoefficient}

/-- The coefficient has been made of the expression, in some arena that has grown
    out of the given one. -/
def Made (base : Arena) (var order : Nat) (t : Tree) (c : LeadingCoefficient) : Prop :=
  ∃ (b : Arena) (h : Nat), b.WellFormed ∧ base.Extends b ∧ h < b.count ∧ b.expression h = t ∧
    create b var order h = .ok c

/-- A coefficient that has been made of the expression vanishes nowhere. -/
def Accepts (base : Arena) (d : Domain Float) (options : ReductionOptions) (var order : Nat)
    (t : Tree) : Prop :=
  ∃ c, Made base var order t c ∧
    c.check d options.singularTolerance options.sampleCount.toNat = .ok ()

theorem Made.alike (made : Made base var order t c) (made' : Made base var order t c')
    (settled : ∀ k ∈ t.values, base.Settles k) : c.Alike c' := by
  obtain ⟨a, g, wfa, growna, insidea, rfl, created⟩ := made
  obtain ⟨b, h, wfb, grownb, insideb, same, created'⟩ := made'
  have trees := Arena.bare_tree_eq wfa wfb growna grownb insidea insideb same.symm settled
  exact alike_of_create insidea insideb trees created created'

/-- What is accepted somewhere is accepted everywhere. -/
theorem Accepts.create {d : Domain Float} {options : ReductionOptions}
    (accepts : Accepts base d options var order t) (settled : ∀ k ∈ t.values, base.Settles k)
    (low : t.lowered 0 = true) {b : Arena} (wf : b.WellFormed) (grown : base.Extends b) {h : Nat}
    (inside : h < b.count) (same : b.expression h = t) :
    ∃ c, create b var order h = .ok c ∧
      c.check d options.singularTolerance options.sampleCount.toNat = .ok () := by
  obtain ⟨c, made, checked⟩ := accepts
  obtain ⟨a, g, wfa, growna, insidea, known, created⟩ := id made
  have trees := Arena.bare_tree_eq wfa wf growna grown insidea inside (known.trans same.symm)
    (known.symm ▸ settled)
  obtain ⟨c', created'⟩ := exists_create insidea inside trees (same ▸ low) created
  have alike := alike_of_create insidea inside trees created created'
  have outcome := alike.check d options.singularTolerance options.sampleCount.toNat
  rw [checked] at outcome
  refine ⟨c', created', ?_⟩
  cases found : c'.check d options.singularTolerance options.sampleCount.toNat with
  | ok => rfl
  | error e =>
    rw [found] at outcome
    cases outcome

/-! ## The coefficient one -/

/-- The coefficient one is recognised as a plain number. -/
theorem create_one {a : Arena} {var order h : Nat} (inside : h < a.count)
    (one : a.expression h = .constant (.number (.ofFloat 1))) :
    Ended (create a var order h)
      (fun c => c.handle = h ∧ c.constant = some 1) fun _ => False := by
  obtain ⟨i, hn, key⟩ := Arena.exists_constant inside one
  have double : constantValue a h = .ok (some 1) := by
    unfold constantValue
    rw [hn]
    cases value : a.value i with
    | external f =>
      rw [value] at key
      cases key
    | number n =>
      rw [value] at key
      have same : n.key = .ofFloat 1 := Value.number.inj key
      simp only [value, Number.toDouble_of_key_one same]
      rfl
  unfold create
  rw [Program.ofTrees_constant hn, double]
  exact ⟨rfl, rfl⟩

/-- It vanishes nowhere. -/
theorem check_one {c : LeadingCoefficient} (constant : c.constant = some 1) (d : Domain Float)
    (tolerance : Float) (count : Nat) : c.check d tolerance count = .ok () := by
  unfold check singularity?
  rw [constant]
  rfl

/-- So it is accepted everywhere. -/
theorem accepts_one {a : Arena} (wf : a.WellFormed) (d : Domain Float)
    (options : ReductionOptions) (var order : Nat) :
    Accepts a d options var order Tree.one := by
  obtain ⟨h, b, -, made⟩ := (Arena.constantOf_makes wf (.number (.ofFloat 1))).exists_ok
  have expression := made.expression
  rw [Value.key_one] at expression
  cases run : create b var order h with
  | error e => exact ((create_one made.inside expression).of_error run).elim
  | ok c =>
    obtain ⟨-, constant⟩ := (create_one made.inside expression).of_ok run
    exact ⟨c, ⟨b, h, made.wellFormed, made.grown, made.inside, expression, run⟩,
      check_one constant d _ _⟩

end LeadingCoefficient

end JetForm
