import JetForm.Proofs.Tree.Rebuild

/-! # Normal forms of trees

    `Tree.push` and `Tree.normalForm` say on trees what the pass over an arena
    does with handles and a memory.  `Tree.Pushes` lists the ways to push a
    derivative, one for each kind of tree that lets it through; what holds of
    all of them holds of `Tree.push`. -/

namespace JetForm

namespace Value

theorem key_zero : (Value.number (.ofFloat 0)).key = .number (.ofFloat 0) := by decide

theorem key_one : (Value.number (.ofFloat 1)).key = .number (.ofFloat 1) := by decide

end Value

namespace Tree

/-- The derivative of order `k` of a tree in normal form, if it can be pushed to
    the unknowns. -/
def push (k : Nat) : Tree → Option Tree
  | .leaf var => some (.derivative (.leaf var) k)
  | .independent => some (.constant (.number (.ofFloat (if k = 1 then 1 else 0))))
  | .constant _ => some (.constant (.number (.ofFloat 0)))
  | .slot .. => none
  | .unary op c => if op.isSign then (c.push k).map (.unary op) else none
  | .treeTree op l r =>
    match op with
    | .plus | .minus => (l.push k).bind fun l => (r.push k).map (.treeTree op l)
    | _ => none
  | .valueTree op v t =>
    if v.isNumber then
      match op with
      | .plus => t.push k
      | .minus => (t.push k).map (.unary .uminus)
      | .times => (t.push k).map (.valueTree .times v)
      | _ => none
    else none
  | .treeValue op t v =>
    if v.isNumber then
      match op with
      | .plus | .minus => t.push k
      | .times | .rdivide => (t.push k).map (.treeValue op · v)
      | .power => none
    else none
  | .derivative c order => some (.derivative c (order + k))

/-- The tree with all derivatives on unknowns, if there is such a form. -/
def normalForm : Tree → Option Tree :=
  rebuild (fun var => some (.leaf var)) fun _ k c => c.bind (·.push k)

/-- Do all constants that stand on their own hold numbers? -/
def numeric : Tree → Bool
  | .constant v => v.isNumber
  | .leaf _ | .independent | .slot .. => true
  | .unary _ c => c.numeric
  | .treeTree _ l r => l.numeric && r.numeric
  | .valueTree _ _ t => t.numeric
  | .treeValue _ t _ => t.numeric
  | .derivative c _ => c.numeric

/-- Are all derivatives of positive order? -/
def ordered : Tree → Bool
  | .leaf _ | .independent | .constant _ | .slot .. => true
  | .unary _ c => c.ordered
  | .treeTree _ l r => l.ordered && r.ordered
  | .valueTree _ _ t => t.ordered
  | .treeValue _ t _ => t.ordered
  | .derivative c k => 0 < k && c.ordered

@[simp] theorem numeric_keyed (t : Tree) : t.keyed.numeric = t.numeric := by
  induction t <;> simp_all [keyed, numeric]

theorem numeric_of_recorded {t : Tree} (recorded : t.recorded = true) : t.numeric = true := by
  induction t <;> simp_all [Tree.recorded, numeric]

/-- What pushing a derivative does to each kind of tree. -/
inductive Pushes (k : Nat) : Tree → Tree → Prop where
  | leaf (var : Nat) : Pushes k (.leaf var) (.derivative (.leaf var) k)
  | independent :
    Pushes k .independent (.constant (.number (.ofFloat (if k = 1 then 1 else 0))))
  | constant (v : Value) : Pushes k (.constant v) (.constant (.number (.ofFloat 0)))
  | derivative (c : Tree) (order : Nat) :
    Pushes k (.derivative c order) (.derivative c (order + k))
  | sign {op : UnaryOp} {c c' : Tree} (sign : op.isSign = true) (child : Pushes k c c') :
    Pushes k (.unary op c) (.unary op c')
  | sum {op : BinaryOp} {l l' r r' : Tree} (sum : op = .plus ∨ op = .minus)
    (left : Pushes k l l') (right : Pushes k r r') :
    Pushes k (.treeTree op l r) (.treeTree op l' r')
  | afterNumber {n : Number} {t t' : Tree} (child : Pushes k t t') :
    Pushes k (.valueTree .plus (.number n) t) t'
  | fromNumber {n : Number} {t t' : Tree} (child : Pushes k t t') :
    Pushes k (.valueTree .minus (.number n) t) (.unary .uminus t')
  | timesNumber {n : Number} {t t' : Tree} (child : Pushes k t t') :
    Pushes k (.valueTree .times (.number n) t) (.valueTree .times (.number n) t')
  | beforeNumber {op : BinaryOp} {n : Number} {t t' : Tree} (sum : op = .plus ∨ op = .minus)
    (child : Pushes k t t') : Pushes k (.treeValue op t (.number n)) t'
  | scale {op : BinaryOp} {n : Number} {t t' : Tree} (product : op = .times ∨ op = .rdivide)
    (child : Pushes k t t') :
    Pushes k (.treeValue op t (.number n)) (.treeValue op t' (.number n))

theorem pushes_of_push {k : Nat} {t t' : Tree} (pushed : t.push k = some t') :
    Pushes k t t' := by
  induction t generalizing t' with
  | leaf var =>
    cases pushed
    exact .leaf var
  | independent =>
    cases pushed
    exact .independent
  | constant v =>
    cases pushed
    exact .constant v
  | slot => cases pushed
  | derivative c order ih =>
    cases pushed
    exact .derivative c order
  | unary op c ih =>
    simp only [push] at pushed
    split at pushed
    case isFalse => cases pushed
    case isTrue sign =>
      obtain ⟨c', child, rfl⟩ := Option.map_eq_some_iff.mp pushed
      exact .sign sign (ih child)
  | treeTree op l r ihl ihr =>
    -- a derivative is pushed into both terms of a sum, and into no other operation
    have sum : (op = .plus ∨ op = .minus) →
        ((l.push k).bind fun l => (r.push k).map (.treeTree op l)) = some t' →
        Pushes k (.treeTree op l r) t' := by
      intro sum pushed
      obtain ⟨l', left, rest⟩ := Option.bind_eq_some_iff.mp pushed
      obtain ⟨r', right, rfl⟩ := Option.map_eq_some_iff.mp rest
      exact .sum sum (ihl left) (ihr right)
    cases op with
    | plus => exact sum (Or.inl rfl) pushed
    | minus => exact sum (Or.inr rfl) pushed
    | times | rdivide | power => cases pushed
  | valueTree op v t ih =>
    cases v with
    | external f => cases pushed
    | number n =>
      cases op with
      -- the derivative of a number vanishes, so a sum with one loses it
      | plus => exact .afterNumber (ih pushed)
      | minus =>
        obtain ⟨c', child, rfl⟩ := Option.map_eq_some_iff.mp pushed
        exact .fromNumber (ih child)
      | times =>
        obtain ⟨c', child, rfl⟩ := Option.map_eq_some_iff.mp pushed
        exact .timesNumber (ih child)
      | rdivide | power => cases pushed
  | treeValue op t v ih =>
    cases v with
    | external f => cases pushed
    | number n =>
      cases op with
      | plus => exact .beforeNumber (Or.inl rfl) (ih pushed)
      | minus => exact .beforeNumber (Or.inr rfl) (ih pushed)
      | times =>
        obtain ⟨c', child, rfl⟩ := Option.map_eq_some_iff.mp pushed
        exact .scale (Or.inl rfl) (ih child)
      | rdivide =>
        obtain ⟨c', child, rfl⟩ := Option.map_eq_some_iff.mp pushed
        exact .scale (Or.inr rfl) (ih child)
      | power => cases pushed

theorem Pushes.numeric {k : Nat} {t t' : Tree} (pushes : Pushes k t t')
    (numeric : t.numeric = true) : t'.numeric = true := by
  induction pushes with
  | leaf | independent | constant => rfl
  | derivative => exact numeric
  | sign _ _ ih | fromNumber _ ih | afterNumber _ ih | timesNumber _ ih => exact ih numeric
  | beforeNumber _ _ ih | scale _ _ ih => exact ih numeric
  | sum _ _ _ ihl ihr =>
    obtain ⟨left, right⟩ := Bool.and_eq_true_iff.mp numeric
    simp [Tree.numeric, ihl left, ihr right]

theorem Pushes.real {k : Nat} {t t' : Tree} (pushes : Pushes k t t') (real : t.real = true) :
    t'.real = true := by
  induction pushes with
  | leaf | independent | constant => rfl
  | derivative => exact real
  | sign _ _ ih => exact ih real
  | sum _ _ _ ihl ihr =>
    obtain ⟨left, right⟩ := Bool.and_eq_true_iff.mp real
    simp [Tree.real, ihl left, ihr right]
  | afterNumber _ ih | fromNumber _ ih =>
    exact ih (Bool.and_eq_true_iff.mp real).2
  | timesNumber _ ih =>
    obtain ⟨number, below⟩ := Bool.and_eq_true_iff.mp real
    simp [Tree.real, number, ih below]
  | beforeNumber _ _ ih =>
    exact ih (Bool.and_eq_true_iff.mp real).1
  | scale _ _ ih =>
    obtain ⟨below, number⟩ := Bool.and_eq_true_iff.mp real
    simp [Tree.real, number, ih below]

theorem real_normalForm {t t' : Tree} (normal : t.normalForm = some t') (real : t.real = true) :
    t'.real = true := by
  induction t generalizing t' with
  | leaf | independent | constant | slot =>
    cases normal
    exact real
  | derivative c k ih =>
    obtain ⟨c', child, pushed⟩ := Option.bind_eq_some_iff.mp normal
    exact (pushes_of_push pushed).real (ih child real)
  | unary op c ih =>
    obtain ⟨c', child, rfl⟩ := Option.map_eq_some_iff.mp normal
    have below := ih child real
    exact below
  | valueTree op v c ih =>
    obtain ⟨c', child, rfl⟩ := Option.map_eq_some_iff.mp normal
    obtain ⟨number, below⟩ := Bool.and_eq_true_iff.mp real
    simp [Tree.real, number, ih child below]
  | treeValue op c v ih =>
    obtain ⟨c', child, rfl⟩ := Option.map_eq_some_iff.mp normal
    obtain ⟨below, number⟩ := Bool.and_eq_true_iff.mp real
    simp [Tree.real, number, ih child below]
  | treeTree op l r ihl ihr =>
    obtain ⟨l', left, rest⟩ := Option.bind_eq_some_iff.mp normal
    obtain ⟨r', right, rfl⟩ := Option.map_eq_some_iff.mp rest
    obtain ⟨reall, realr⟩ := Bool.and_eq_true_iff.mp real
    simp [Tree.real, ihl left reall, ihr right realr]

theorem numeric_normalForm {t t' : Tree} (normal : t.normalForm = some t')
    (numeric : t.numeric = true) : t'.numeric = true := by
  induction t generalizing t' with
  | leaf | independent | constant | slot =>
    cases normal
    exact numeric
  | derivative c k ih =>
    obtain ⟨c', child, pushed⟩ := Option.bind_eq_some_iff.mp normal
    exact (pushes_of_push pushed).numeric (ih child numeric)
  | unary op c ih | valueTree op v c ih | treeValue op c v ih =>
    obtain ⟨c', child, rfl⟩ := Option.map_eq_some_iff.mp normal
    have below := ih child numeric
    exact below
  | treeTree op l r ihl ihr =>
    obtain ⟨l', left, rest⟩ := Option.bind_eq_some_iff.mp normal
    obtain ⟨r', right, rfl⟩ := Option.map_eq_some_iff.mp rest
    obtain ⟨numericl, numericr⟩ := Bool.and_eq_true_iff.mp numeric
    simp [Tree.numeric, ihl left numericl, ihr right numericr]

end Tree

end JetForm
