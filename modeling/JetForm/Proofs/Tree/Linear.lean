import JetForm.Proofs.Tree.Separation

/-! # Linear occurrences

    `Tree.Linear` is the grammar of the trees in which a derivative occurs linearly: as a
    summand, under signs, and in products and quotients with values and with functions of the
    independent variable.  Decomposition does not look at the grammar; it compares orders of
    differentiation.  If all derivatives are ones of unknowns and none is of a higher order, both
    come to the same: trees with a leading coefficient are linear (`linear_of_lead`), and linear
    trees let the derivative be separated (`Linear.separable`). -/

namespace JetForm

namespace Tree

variable {var order : Nat} {t : Tree} {x y : Halves}

/-! ## Occurrences -/

/-- The derivative does not occur in the tree. -/
def Lacks (var order : Nat) (t : Tree) : Prop :=
  .derivative (.leaf var) order ∉ t.parts

/-- Every derivative in the tree is one of an unknown. -/
def OnUnknowns (t : Tree) : Prop :=
  ∀ c k, .derivative c k ∈ t.parts → ∃ v, c = .leaf v

theorem parts_of_child {t c : Tree} (hc : c ∈ t.children) : ∀ p ∈ c.parts, p ∈ t.parts :=
  fun _ hp => mem_parts.mpr (Or.inr ⟨c, hc, hp⟩)

theorem Lacks.child (lacks : t.Lacks var order) : ∀ c ∈ t.children, c.Lacks var order :=
  fun _ hc occurs => lacks (parts_of_child hc _ occurs)

theorem OnUnknowns.child (plain : t.OnUnknowns) : ∀ c ∈ t.children, c.OnUnknowns :=
  fun _ hc d k occurs => plain d k (parts_of_child hc _ occurs)

/-- So it is in normal trees. -/
theorem onUnknowns_of_isNormal {t : Tree} (normal : t.isNormal = true) : t.OnUnknowns := by
  intro d k occurs
  induction t with
  | leaf | independent | constant | slot => cases List.mem_singleton.mp occurs
  | unary op c ih | valueTree op v c ih | treeValue op c v ih =>
    rcases List.mem_cons.mp occurs with eq | inner
    · cases eq
    · exact ih normal inner
  | treeTree op l r ihl ihr =>
    obtain ⟨left, right⟩ := Bool.and_eq_true_iff.mp normal
    rcases List.mem_cons.mp occurs with eq | inner
    · cases eq
    · rcases List.mem_append.mp inner with inner | inner
      · exact ihl left inner
      · exact ihr right inner
  | derivative c j =>
    cases c with
    | leaf v =>
      rcases List.mem_cons.mp occurs with eq | inner
      · exact ⟨v, (Tree.derivative.inj eq).1⟩
      · cases List.mem_singleton.mp inner
    | independent | constant | slot | unary | valueTree | treeValue | treeTree | derivative =>
      cases normal

theorem diffOrder_child_le {t c : Tree} (hc : c ∈ t.children) : c.diffOrder var ≤ t.diffOrder var := by
  cases t with
  | leaf | independent | constant | slot => cases hc
  | unary | valueTree | treeValue =>
    obtain rfl := List.mem_singleton.mp hc
    exact le_rfl
  | treeTree op l r =>
    obtain rfl | rfl : c = l ∨ c = r := by simpa [children] using hc
    · exact le_max_left _ _
    · exact le_max_right _ _
  | derivative d k =>
    obtain rfl := List.mem_singleton.mp hc
    rw [diffOrder]
    split <;> omega

theorem diffOrder_le_of_mem_parts {t p : Tree} (hp : p ∈ t.parts) :
    p.diffOrder var ≤ t.diffOrder var := by
  induction t with
  | leaf | independent | constant | slot =>
    obtain rfl := List.mem_singleton.mp hp
    exact le_rfl
  | unary op c ih | valueTree op v c ih | treeValue op c v ih | derivative c k ih =>
    rcases mem_parts.mp hp with rfl | ⟨d, hd, inner⟩
    · exact le_rfl
    · have bound : d.diffOrder var ≤ _ := diffOrder_child_le hd
      obtain rfl := List.mem_singleton.mp hd
      exact (ih inner).trans bound
  | treeTree op l r ihl ihr =>
    rcases mem_parts.mp hp with rfl | ⟨d, hd, inner⟩
    · exact le_rfl
    · have bound : d.diffOrder var ≤ _ := diffOrder_child_le hd
      obtain rfl | rfl : d = l ∨ d = r := by simpa [children] using hd
      · exact (ihl inner).trans bound
      · exact (ihr inner).trans bound

/-- A tree that differentiates an unknown less often lacks the derivative, and all higher ones. -/
theorem lacks_of_lt (low : t.diffOrder var < order) : t.Lacks var order := by
  intro occurs
  have bound : (Tree.derivative (.leaf var) order).diffOrder var ≤ t.diffOrder var :=
    diffOrder_le_of_mem_parts occurs
  have whole : (Tree.derivative (.leaf var) order).diffOrder var = order := by
    simp [diffOrder, dependsOn]
  omega

/-- If it lacks the highest derivative that there may be, all are lower. -/
theorem lt_of_lacks (positive : 0 < order) (plain : t.OnUnknowns) (bounded : t.diffOrder var ≤ order)
    (lacks : t.Lacks var order) : t.diffOrder var < order := by
  induction t with
  | leaf | independent | constant | slot => exact positive
  | unary op c ih | valueTree op v c ih | treeValue op c v ih =>
    exact ih (plain.child c List.mem_cons_self) bounded (lacks.child c List.mem_cons_self)
  | treeTree op l r ihl ihr =>
    have bounds := max_le_iff.mp bounded
    have hl : l ∈ children (.treeTree op l r) := by simp [children]
    have hr : r ∈ children (.treeTree op l r) := by simp [children]
    exact max_lt (ihl (plain.child l hl) bounds.1 (lacks.child l hl))
      (ihr (plain.child r hr) bounds.2 (lacks.child r hr))
  | derivative c k =>
    obtain ⟨v, rfl⟩ := plain c k (mem_parts.mpr (Or.inl rfl))
    by_cases same : v = var
    · -- its order is not the one that is lacking
      subst same
      have other : k ≠ order := by
        rintro rfl
        exact lacks (mem_parts.mpr (Or.inl rfl))
      simp only [diffOrder, dependsOn, beq_self_eq_true, if_true] at bounded ⊢
      omega
    · simpa [diffOrder, dependsOn, same] using positive

/-! ## The grammar -/

/-- The trees in which a derivative of an unknown occurs linearly. -/
inductive Linear (var order : Nat) : Tree → Prop
  | jet : Linear var order (.derivative (.leaf var) order)
  | uplus {l : Tree} : Linear var order l → Linear var order (.unary .uplus l)
  | uminus {l : Tree} : Linear var order l → Linear var order (.unary .uminus l)
  | sum {op : BinaryOp} {l r : Tree} : op = .plus ∨ op = .minus → Linear var order l →
    Linear var order r → Linear var order (.treeTree op l r)
  | before {op : BinaryOp} {l m : Tree} : op = .plus ∨ op = .minus → Linear var order l →
    m.Lacks var order → Linear var order (.treeTree op l m)
  | after {op : BinaryOp} {m l : Tree} : op = .plus ∨ op = .minus → m.Lacks var order →
    Linear var order l → Linear var order (.treeTree op m l)
  | beforeValue {op : BinaryOp} {l : Tree} {v : Value} : op = .plus ∨ op = .minus →
    Linear var order l → Linear var order (.treeValue op l v)
  | afterValue {op : BinaryOp} {v : Value} {l : Tree} : op = .plus ∨ op = .minus →
    Linear var order l → Linear var order (.valueTree op v l)
  | valueTimes {v : Value} {l : Tree} : Linear var order l →
    Linear var order (.valueTree .times v l)
  | timesValue {l : Tree} {v : Value} : Linear var order l →
    Linear var order (.treeValue .times l v)
  | overValue {l : Tree} {v : Value} : Linear var order l →
    Linear var order (.treeValue .rdivide l v)
  | timesTree {l c : Tree} : Linear var order l → c.isClosed = true →
    Linear var order (.treeTree .times l c)
  | treeTimes {c l : Tree} : c.isClosed = true → Linear var order l →
    Linear var order (.treeTree .times c l)
  | overTree {l c : Tree} : Linear var order l → c.isClosed = true →
    Linear var order (.treeTree .rdivide l c)

theorem Linear.scale {op : BinaryOp} {unit : Tree} {f : Tree → Option Tree} {hole : Tree → Tree}
    (scaling : Scaling op unit f hole) (linear : t.Linear var order) :
    (hole t).Linear var order := by
  cases scaling with
  | valueTimes => exact .valueTimes linear
  | byValue v product =>
    rcases product with rfl | rfl
    · exact .timesValue linear
    · exact .overValue linear
  | treeTimes closed => exact .treeTimes closed linear
  | byTree product closed =>
    rcases product with rfl | rfl
    · exact .timesTree linear closed
    · exact .overTree linear closed

/-! ## What can be decomposed is linear -/

theorem scaled_eq_none {op : BinaryOp} {unit : Tree} {f : Tree → Option Tree} {p q : Option Tree}
    (eq : scaled op unit f p = some q) (none : q = none) : p = Option.none := by
  cases p with
  | none => rfl
  | some t =>
    obtain ⟨t', -, made⟩ := Option.map_eq_some_iff.mp eq
    cases made.trans none

/-- A sum without a coefficient has two terms without one. -/
theorem Halves.combine_coeff_eq_none {op : BinaryOp} (none : (x.combine op y).coeff = none) :
    x.coeff = Option.none ∧ y.coeff = Option.none := by
  obtain ⟨p, r⟩ := x
  obtain ⟨q, s⟩ := y
  unfold Halves.combine at none
  split at none
  all_goals cases p <;> cases q <;> first | exact ⟨rfl, rfl⟩ | cases none

/-- Without a coefficient the derivative does not occur. -/
theorem Separates.lt_of_none (separates : Separates var order t x) (none : x.coeff = none) :
    t.diffOrder var < order := by
  induction separates with
  | plain below => exact below
  | jet => cases none
  | uplus _ ih => exact ih none
  | uminus _ ih => exact ih (Option.map_eq_none_iff.mp none)
  | sum _ _ _ ihl ihr =>
    obtain ⟨left, right⟩ := Halves.combine_coeff_eq_none none
    exact max_lt (ihl left) (ihr right)
  | @afterValue op v t x _ _ ih =>
    apply ih
    change (if op = .plus then x.coeff else negative x.coeff) = Option.none at none
    split at none
    · exact none
    · exact Option.map_eq_none_iff.mp none
  | beforeValue _ _ ih => exact ih none
  | scale scaling _ eq ih =>
    rw [scaling.diffOrder_hole]
    exact ih (scaled_eq_none (Halves.map_eq_some.mp eq).1 none)

/-- With one the tree is linear. -/
theorem Separates.linear (separates : Separates var order t x) (some : x.coeff ≠ none) :
    t.Linear var order := by
  induction separates with
  | plain => exact absurd rfl some
  | jet => exact .jet
  | uplus _ ih => exact .uplus (ih some)
  | uminus _ ih => exact .uminus (ih fun none => some (congrArg negative none))
  | @sum op l r x y additive left right ihl ihr =>
    by_cases hl : x.coeff = none
    · have low := lacks_of_lt (left.lt_of_none hl)
      by_cases hr : y.coeff = none
      · -- neither term has a coefficient
        refine absurd ?_ some
        unfold Halves.combine
        split <;> simp [hl, hr, sumOf, differenceOf]
      · exact .after additive low (ihr hr)
    · by_cases hr : y.coeff = none
      · exact .before additive (ihl hl) (lacks_of_lt (right.lt_of_none hr))
      · exact .sum additive (ihl hl) (ihr hr)
  | @afterValue op v t x additive _ ih =>
    refine .afterValue additive (ih fun none => some ?_)
    show (if op = .plus then x.coeff else negative x.coeff) = Option.none
    rw [none]
    split <;> rfl
  | beforeValue additive _ ih => exact .beforeValue additive (ih some)
  | scale scaling _ eq ih =>
    refine (ih fun none => some ?_).scale scaling
    have coeff := (Halves.map_eq_some.mp eq).1
    rw [none] at coeff
    exact (Option.some.inj coeff).symm

/-- Trees with a leading coefficient are linear. -/
theorem linear_of_lead {z : Tree × Option Tree} (eq : t.lead var order = some z) :
    t.Linear var order :=
  (separates_of_lead eq).linear (by simp)

/-! ## What is linear can be decomposed -/

theorem Linear.not_lt (linear : t.Linear var order) : ¬ t.diffOrder var < order := by
  rw [Nat.not_lt]
  induction linear with
  | jet => simp [diffOrder, dependsOn]
  | uplus _ ih | uminus _ ih | beforeValue _ _ ih | afterValue _ _ ih | valueTimes _ ih => exact ih
  | timesValue _ ih | overValue _ ih => exact ih
  | sum _ _ _ ih | before _ _ _ ih | timesTree _ _ ih | overTree _ _ ih =>
    exact ih.trans (le_max_left _ _)
  | after _ _ _ ih | treeTimes _ _ ih => exact ih.trans (le_max_right _ _)

/-- Derivatives are ones of unknowns, and none of the unknown is of a higher order. -/
structure Bounded (var order : Nat) (t : Tree) : Prop where
  plain : t.OnUnknowns
  le : t.diffOrder var ≤ order

theorem Bounded.child (bounded : t.Bounded var order) : ∀ c ∈ t.children, c.Bounded var order :=
  fun c hc => ⟨bounded.plain.child c hc, (diffOrder_child_le hc).trans bounded.le⟩

/-- A term that lacks the derivative is no obstacle. -/
theorem Bounded.separable_of_lacks (positive : 0 < order) (bounded : t.Bounded var order)
    (lacks : t.Lacks var order) : t.separable var order = true := by
  rw [separable.eq_def, if_pos (lt_of_lacks positive bounded.plain bounded.le lacks)]

/-- Linear trees let the derivative be separated. -/
theorem Linear.separable (linear : t.Linear var order) (positive : 0 < order)
    (bounded : t.Bounded var order) : t.separable var order = true := by
  have closed_low : ∀ {c : Tree}, c.isClosed = true → ¬ order ≤ c.diffOrder var := by
    intro c closed
    rw [diffOrder_of_isClosed var closed]
    omega
  -- by the grammar; the operands of a sum and the factor beside a closed one are bounded again
  induction linear with
  | jet =>
    rw [separable.eq_def, if_neg Linear.jet.not_lt]
    exact decide_eq_true ⟨rfl, rfl⟩
  | uplus l ih =>
    rw [separable.eq_def, if_neg l.uplus.not_lt]
    exact ih (bounded.child _ List.mem_cons_self)
  | uminus l ih =>
    rw [separable.eq_def, if_neg l.uminus.not_lt]
    exact ih (bounded.child _ List.mem_cons_self)
  | sum additive l r ihl ihr =>
    have left := ihl (bounded.child _ List.mem_cons_self)
    have right := ihr (bounded.child _ (List.mem_cons_of_mem _ List.mem_cons_self))
    rw [separable.eq_def, if_neg (Linear.sum additive l r).not_lt]
    rcases additive with rfl | rfl <;> exact Bool.and_eq_true_iff.mpr ⟨left, right⟩
  | before additive l lacks ih =>
    have left := ih (bounded.child _ List.mem_cons_self)
    have right := (bounded.child _ (List.mem_cons_of_mem _ List.mem_cons_self)).separable_of_lacks
      positive lacks
    rw [separable.eq_def, if_neg (Linear.before additive l lacks).not_lt]
    rcases additive with rfl | rfl <;> exact Bool.and_eq_true_iff.mpr ⟨left, right⟩
  | after additive lacks l ih =>
    have left := (bounded.child _ List.mem_cons_self).separable_of_lacks positive lacks
    have right := ih (bounded.child _ (List.mem_cons_of_mem _ List.mem_cons_self))
    rw [separable.eq_def, if_neg (Linear.after additive lacks l).not_lt]
    rcases additive with rfl | rfl <;> exact Bool.and_eq_true_iff.mpr ⟨left, right⟩
  | beforeValue additive l ih =>
    have child := ih (bounded.child _ List.mem_cons_self)
    rw [separable.eq_def, if_neg (l.beforeValue additive).not_lt]
    rcases additive with rfl | rfl <;> exact child
  | afterValue additive l ih =>
    have child := ih (bounded.child _ List.mem_cons_self)
    rw [separable.eq_def, if_neg (l.afterValue additive).not_lt]
    rcases additive with rfl | rfl <;> exact child
  | valueTimes l ih =>
    rw [separable.eq_def, if_neg l.valueTimes.not_lt]
    exact ih (bounded.child _ List.mem_cons_self)
  | timesValue l ih =>
    rw [separable.eq_def, if_neg l.timesValue.not_lt]
    exact ih (bounded.child _ List.mem_cons_self)
  | overValue l ih =>
    rw [separable.eq_def, if_neg l.overValue.not_lt]
    exact ih (bounded.child _ List.mem_cons_self)
  | timesTree l closed ih =>
    have child := ih (bounded.child _ List.mem_cons_self)
    rw [separable.eq_def, if_neg (l.timesTree closed).not_lt]
    dsimp only
    rw [if_neg (fun both => closed_low closed both.2), if_pos (Nat.not_lt.mp l.not_lt), closed, child]
    rfl
  | treeTimes closed l ih =>
    have child := ih (bounded.child _ (List.mem_cons_of_mem _ List.mem_cons_self))
    rw [separable.eq_def, if_neg (l.treeTimes closed).not_lt]
    dsimp only
    rw [if_neg (fun both => closed_low closed both.1), if_neg (closed_low closed), closed, child]
    rfl
  | overTree l closed ih =>
    rw [separable.eq_def, if_neg (l.overTree closed).not_lt]
    dsimp only
    rw [if_neg (by simp [closed, closed_low closed])]
    exact ih (bounded.child _ List.mem_cons_self)

/-- A linear tree that has halves has a leading coefficient. -/
theorem Linear.exists_lead (linear : t.Linear var order) (found : t.halve var order = some x) :
    ∃ z, t.lead var order = some z := by
  cases coeff : x.coeff with
  | none => exact absurd ((separates_of_halve found).lt_of_none coeff) linear.not_lt
  | some c => exact ⟨(c, x.rest), by rw [lead, found]; simp [coeff]⟩

end Tree

end JetForm
