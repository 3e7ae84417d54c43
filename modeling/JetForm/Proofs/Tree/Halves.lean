import JetForm.Proofs.Tree.Solid

/-! # Decompositions of trees

    Extraction works on handles and builds as it goes.  `Tree.halve` is the same
    decomposition as a function of trees alone: it has no value if the leading
    derivative is inseparable, or if a quotient on the way cannot be recorded. -/

namespace JetForm

namespace Tree

/-- Both parts of a decomposed tree; `none` stands for zero. -/
structure Halves where
  coeff : Option Tree
  rest : Option Tree

def one : Tree :=
  .constant (.number (.ofFloat 1))

/-- Is the tree a function of the independent variable? -/
def Closed (t : Tree) : Prop :=
  ∀ var, t.dependsOn var = false

/-- The same as a computation. -/
def isClosed : Tree → Bool
  | .leaf _ | .slot .. => false
  | .independent | .constant _ => true
  | .unary _ c => c.isClosed
  | .valueTree _ _ t => t.isClosed
  | .treeValue _ t _ => t.isClosed
  | .treeTree _ l r => l.isClosed && r.isClosed
  | .derivative c _ => c.isClosed

theorem isClosed_iff {t : Tree} : t.isClosed = true ↔ t.Closed := by
  unfold Closed
  induction t with
  | leaf var | slot index var order =>
    simp only [isClosed, dependsOn, Bool.false_eq_true, false_iff, not_forall]
    exact ⟨var, by simp⟩
  | independent | constant => simp [isClosed, dependsOn]
  | unary op c ih | valueTree op v c ih | treeValue op c v ih | derivative c k ih => exact ih
  | treeTree op l r ihl ihr => simp [isClosed, dependsOn, ihl, ihr, forall_and]

/-! ## Arithmetic with parts -/

def sumOf : Option Tree → Option Tree → Option Tree
  | none, q => q
  | p, none => p
  | some s, some t => some (.treeTree .plus s t)

def negative (p : Option Tree) : Option Tree :=
  p.map (.unary .uminus)

def differenceOf : Option Tree → Option Tree → Option Tree
  | p, none => p
  | none, some t => some (.unary .uminus t)
  | some s, some t => some (.treeTree .minus s t)

/-- A product or quotient, where `unit` is the product with one. -/
def scaled (op : BinaryOp) (unit : Tree) (f : Tree → Option Tree) :
    Option Tree → Option (Option Tree)
  | none => some none
  | some t => some <$> if t = one ∧ op = .times then some unit else f t

/-- The product or quotient with a value, if it can be recorded. -/
def withValue (op : BinaryOp) (v : Value) (t : Tree) : Option Tree :=
  if divisible op t v then some (.treeValue op t v) else none

namespace Halves

/-- An operation on the coefficient and on the rest. -/
def map (f : Option Tree → Option (Option Tree)) (x : Halves) : Option Halves := do
  let coeff ← f x.coeff
  let rest ← f x.rest
  return ⟨coeff, rest⟩

/-- A sum or a difference. -/
def combine (op : BinaryOp) (x y : Halves) : Halves :=
  if op = .plus then ⟨sumOf x.coeff y.coeff, sumOf x.rest y.rest⟩
  else ⟨differenceOf x.coeff y.coeff, differenceOf x.rest y.rest⟩

/-- The sum or difference of a value and the tree. -/
def afterValue (op : BinaryOp) (v : Value) (x : Halves) : Halves :=
  ⟨if op = .plus then x.coeff else negative x.coeff,
    some (x.rest.elim (.constant v) (.valueTree op v))⟩

/-- The sum or difference of the tree and a value. -/
def beforeValue (op : BinaryOp) (v : Value) (x : Halves) : Halves :=
  ⟨x.coeff, some (x.rest.elim
    (if op = .plus then .constant v else .unary .uminus (.constant v)) (.treeValue op · v))⟩

end Halves

/-! ## Decomposition -/

/-- The tree as `coeff * D + rest`, where `D` is the derivative of the given order
    of an unknown. -/
def halve (var order : Nat) (t : Tree) : Option Halves :=
  if t.diffOrder var < order then some ⟨none, some t⟩
  else
    match t with
    | .leaf _ | .independent | .constant _ | .slot .. => none
    | .derivative c k => if k = order ∧ c = .leaf var then some ⟨some one, none⟩ else none
    | .unary op c =>
      match op with
      | .uplus => c.halve var order
      | .uminus => (c.halve var order).bind (Halves.map fun p => some (negative p))
      | _ => none
    | .treeTree op l r =>
      match op with
      | .plus | .minus =>
        (l.halve var order).bind fun x => (r.halve var order).map (Halves.combine op x)
      | .times =>
        if order ≤ l.diffOrder var ∧ order ≤ r.diffOrder var then none
        else if order ≤ l.diffOrder var then
          if r.isClosed then
            (l.halve var order).bind (Halves.map (scaled .times r fun t =>
              some (.treeTree .times t r)))
          else none
        else if l.isClosed then
          (r.halve var order).bind (Halves.map (scaled .times l fun t =>
            some (.treeTree .times l t)))
        else none
      | .rdivide =>
        if order ≤ r.diffOrder var ∨ r.isClosed = false then none
        else
          (l.halve var order).bind (Halves.map (scaled .rdivide r fun t =>
            some (.treeTree .rdivide t r)))
      | .power => none
    | .valueTree op v t =>
      match op with
      | .plus | .minus => (t.halve var order).map (Halves.afterValue op v)
      | .times =>
        (t.halve var order).bind (Halves.map (scaled .times (.constant v) fun t =>
          some (.valueTree .times v t)))
      | _ => none
    | .treeValue op t v =>
      match op with
      | .plus | .minus => (t.halve var order).map (Halves.beforeValue op v)
      | .times | .rdivide =>
        (t.halve var order).bind (Halves.map (scaled op (.constant v) (withValue op v)))
      | .power => none

/-- Do the operations of the tree let the derivative be separated?  Quotients that cannot be
    recorded are no obstacle here. -/
def separable (var order : Nat) (t : Tree) : Bool :=
  if t.diffOrder var < order then true
  else
    match t with
    | .leaf _ | .independent | .constant _ | .slot .. => false
    | .derivative c k => k = order ∧ c = .leaf var
    | .unary op c =>
      match op with
      | .uplus | .uminus => c.separable var order
      | _ => false
    | .treeTree op l r =>
      match op with
      | .plus | .minus => l.separable var order && r.separable var order
      | .times =>
        if order ≤ l.diffOrder var ∧ order ≤ r.diffOrder var then false
        else if order ≤ l.diffOrder var then r.isClosed && l.separable var order
        else l.isClosed && r.separable var order
      | .rdivide =>
        if order ≤ r.diffOrder var ∨ r.isClosed = false then false
        else l.separable var order
      | .power => false
    | .valueTree op _ t =>
      match op with
      | .plus | .minus | .times => t.separable var order
      | .rdivide | .power => false
    | .treeValue op t _ =>
      match op with
      | .plus | .minus | .times | .rdivide => t.separable var order
      | .power => false

/-- The leading coefficient of a tree and the rest. -/
def lead (var order : Nat) (t : Tree) : Option (Tree × Option Tree) := do
  let x ← t.halve var order
  let coeff ← x.coeff
  return (coeff, x.rest)

/-! ## The rules of decomposition -/

/-- The products and quotients that a decomposition passes through: the operation, the other
    operand, how the result is recorded, and the result. -/
inductive Scaling : BinaryOp → Tree → (Tree → Option Tree) → (Tree → Tree) → Prop
  | valueTimes (v : Value) :
    Scaling .times (.constant v) (fun t => some (.valueTree .times v t)) (.valueTree .times v)
  | byValue {op : BinaryOp} (v : Value) : op = .times ∨ op = .rdivide →
    Scaling op (.constant v) (withValue op v) (.treeValue op · v)
  | treeTimes {c : Tree} : c.isClosed = true →
    Scaling .times c (fun t => some (.treeTree .times c t)) (.treeTree .times c)
  | byTree {op : BinaryOp} {c : Tree} : op = .times ∨ op = .rdivide → c.isClosed = true →
    Scaling op c (fun t => some (.treeTree op t c)) (.treeTree op · c)

/-- The rules by which a tree is written as `coeff * D + rest`. -/
inductive Separates (var order : Nat) : Tree → Halves → Prop
  | plain {t : Tree} : t.diffOrder var < order → Separates var order t ⟨none, some t⟩
  | jet : Separates var order (.derivative (.leaf var) order) ⟨some one, none⟩
  | uplus {t : Tree} {x : Halves} : Separates var order t x →
    Separates var order (.unary .uplus t) x
  | uminus {t : Tree} {x : Halves} : Separates var order t x →
    Separates var order (.unary .uminus t) ⟨negative x.coeff, negative x.rest⟩
  | sum {op : BinaryOp} {l r : Tree} {x y : Halves} : op = .plus ∨ op = .minus →
    Separates var order l x → Separates var order r y →
    Separates var order (.treeTree op l r) (x.combine op y)
  | afterValue {op : BinaryOp} {v : Value} {t : Tree} {x : Halves} : op = .plus ∨ op = .minus →
    Separates var order t x → Separates var order (.valueTree op v t) (x.afterValue op v)
  | beforeValue {op : BinaryOp} {v : Value} {t : Tree} {x : Halves} : op = .plus ∨ op = .minus →
    Separates var order t x → Separates var order (.treeValue op t v) (x.beforeValue op v)
  | scale {op : BinaryOp} {unit : Tree} {f : Tree → Option Tree} {hole : Tree → Tree} {t : Tree}
      {x y : Halves} : Scaling op unit f hole → Separates var order t x →
    x.map (scaled op unit f) = some y → Separates var order (hole t) y

section

variable {var order : Nat} {l r t : Tree} {x : Halves}

/-- A tree of a lower order is all rest. -/
theorem halve_of_lt (below : t.diffOrder var < order) : t.halve var order = some ⟨none, some t⟩ := by
  rw [halve.eq_def, if_pos below]

/-- One of the factors of a product has to be closed. -/
theorem separates_of_product (above : ¬ (treeTree .times l r).diffOrder var < order)
    (left : ∀ y, l.halve var order = some y → Separates var order l y)
    (right : ∀ y, r.halve var order = some y → Separates var order r y)
    (eq : (treeTree .times l r).halve var order = some x) :
    Separates var order (.treeTree .times l r) x := by
  rw [halve.eq_def, if_neg above] at eq
  dsimp only at eq
  split at eq
  next => cases eq
  next =>
    split at eq
    next =>
      split at eq
      next closed =>
        obtain ⟨y, found, eq⟩ := Option.bind_eq_some_iff.mp eq
        have scaling : Scaling .times r _ (.treeTree .times · r) := .byTree (by simp) closed
        have separates := Separates.scale scaling (left y found) eq
        exact separates
      next => cases eq
    next =>
      split at eq
      next closed =>
        obtain ⟨y, found, eq⟩ := Option.bind_eq_some_iff.mp eq
        exact .scale (.treeTimes closed) (right y found) eq
      next => cases eq

/-- The divisor of a quotient has to be closed. -/
theorem separates_of_quotient (above : ¬ (treeTree .rdivide l r).diffOrder var < order)
    (left : ∀ y, l.halve var order = some y → Separates var order l y)
    (eq : (treeTree .rdivide l r).halve var order = some x) :
    Separates var order (.treeTree .rdivide l r) x := by
  rw [halve.eq_def, if_neg above] at eq
  dsimp only at eq
  split at eq
  next => cases eq
  next closed =>
    obtain ⟨y, found, eq⟩ := Option.bind_eq_some_iff.mp eq
    have closed : r.isClosed = true := eq_true_of_ne_false fun opened => closed (Or.inr opened)
    have scaling : Scaling .rdivide r _ (.treeTree .rdivide · r) := .byTree (by simp) closed
    have separates := Separates.scale scaling (left y found) eq
    exact separates

/-- A decomposition follows the rules. -/
theorem separates_of_halve (eq : t.halve var order = some x) : Separates var order t x := by
  induction t using children_induction generalizing x with
  | step t ih =>
  -- below the order nothing is looked at, whatever the node is; from here on it has the order
  by_cases below : t.diffOrder var < order
  · rw [halve_of_lt below] at eq
    cases eq
    exact .plain below
  cases t with
  | leaf | independent | constant | slot =>
    rw [halve.eq_def, if_neg below] at eq
    cases eq
  | derivative c k =>
    rw [halve.eq_def, if_neg below] at eq
    dsimp only at eq
    split at eq
    next leading =>
      obtain ⟨rfl, rfl⟩ := leading
      cases eq
      exact .jet
    next => cases eq
  | unary op c =>
    have child := fun y => ih c List.mem_cons_self (x := y)
    rw [halve.eq_def, if_neg below] at eq
    cases op with
    | uplus => exact .uplus (child x eq)
    | uminus =>
      obtain ⟨y, found, eq⟩ := Option.bind_eq_some_iff.mp eq
      cases eq
      exact .uminus (child y found)
    | _ => cases eq
  | treeTree op l r =>
    have left := fun y => ih l List.mem_cons_self (x := y)
    have right := fun y => ih r (List.mem_cons_of_mem l List.mem_cons_self) (x := y)
    cases op with
    | plus | minus =>
      rw [halve.eq_def, if_neg below] at eq
      obtain ⟨y, foundl, eq⟩ := Option.bind_eq_some_iff.mp eq
      obtain ⟨z, foundr, rfl⟩ := Option.map_eq_some_iff.mp eq
      exact .sum (by simp) (left y foundl) (right z foundr)
    | times => exact separates_of_product below left right eq
    | rdivide => exact separates_of_quotient below left eq
    | power =>
      rw [halve.eq_def, if_neg below] at eq
      cases eq
  | valueTree op v c =>
    have child := fun y => ih c List.mem_cons_self (x := y)
    rw [halve.eq_def, if_neg below] at eq
    cases op with
    | plus | minus =>
      obtain ⟨y, found, rfl⟩ := Option.map_eq_some_iff.mp eq
      exact .afterValue (by simp) (child y found)
    | times =>
      obtain ⟨y, found, eq⟩ := Option.bind_eq_some_iff.mp eq
      exact .scale (.valueTimes v) (child y found) eq
    | rdivide | power => cases eq
  | treeValue op c v =>
    have child := fun y => ih c List.mem_cons_self (x := y)
    rw [halve.eq_def, if_neg below] at eq
    cases op with
    | plus | minus =>
      obtain ⟨y, found, rfl⟩ := Option.map_eq_some_iff.mp eq
      exact .beforeValue (by simp) (child y found)
    | times | rdivide =>
      obtain ⟨y, found, eq⟩ := Option.bind_eq_some_iff.mp eq
      exact .scale (.byValue v (by simp)) (child y found) eq
    | power => cases eq

end

theorem separates_of_lead {var order : Nat} {t : Tree} {z : Tree × Option Tree}
    (eq : t.lead var order = some z) : Separates var order t ⟨some z.1, z.2⟩ := by
  obtain ⟨x, found, eq⟩ := Option.bind_eq_some_iff.mp eq
  obtain ⟨c, coeff, eq⟩ := Option.bind_eq_some_iff.mp eq
  cases eq
  rw [← coeff]
  exact separates_of_halve found

/-- An expression without the leading derivative that is subtracted from a tree is
    subtracted from its rest. -/
theorem lead_minus {var order : Nat} (positive : 0 < order) {r : Tree} (plain : r.diffOrder var = 0)
    (t : Tree) : (treeTree .minus t r).lead var order =
      (t.lead var order).map fun x => (x.1, differenceOf x.2 (some r)) := by
  have same : (treeTree .minus t r).diffOrder var = t.diffOrder var := by
    simp [diffOrder, plain]
  have right : r.halve var order = some ⟨none, some r⟩ := halve_of_lt (plain ▸ positive)
  unfold lead
  rw [halve.eq_def, same]
  by_cases below : t.diffOrder var < order
  · rw [if_pos below, halve_of_lt below]
    rfl
  · rw [if_neg below]
    dsimp only
    rw [right]
    cases t.halve var order with
    | none => rfl
    | some x =>
      obtain ⟨coeff, rest⟩ := x
      cases coeff <;> rfl

/-- Whatever derivative is asked for, the coefficient in a derivative of an unknown is one. -/
theorem lead_jet {i k var order : Nat} {x : Tree × Option Tree}
    (lead : (Tree.derivative (.leaf i) k).lead var order = some x) : x = (one, none) := by
  obtain ⟨y, halved, rest⟩ := Option.bind_eq_some_iff.mp lead
  obtain ⟨c, coeff, same⟩ := Option.bind_eq_some_iff.mp rest
  cases same
  rw [halve.eq_def] at halved
  split at halved
  next =>
    cases halved
    cases coeff
  next =>
    dsimp only at halved
    split at halved
    next =>
      cases halved
      cases coeff
      rfl
    next => cases halved

/-! ## What the parts inherit -/

/-- The values that the first operation of a tree mentions. -/
def ownValues : Tree → List Value
  | .constant v | .valueTree _ v _ | .treeValue _ _ v => [v]
  | _ => []

/-- A property of trees that goes over to their parts and back, as far as
    operations can be recorded. -/
structure Hereditary (good : Tree → Prop) : Prop where
  child : ∀ t, good t → ∀ c ∈ t.children, good c
  value : ∀ t, good t → ∀ v ∈ t.ownValues, good (.constant v)
  one : good one
  unary : ∀ op t, good t → good (.unary op t)
  treeTree : ∀ op l r, good l → good r → good (.treeTree op l r)
  valueTree : ∀ op v t, good (.constant v) → good t → good (.valueTree op v t)
  treeValue : ∀ op t v, divisible op t v = true → good (.constant v) → good t →
    good (.treeValue op t v)

/-- Both halves are good, as far as there are any. -/
structure Halves.All (good : Tree → Prop) (x : Halves) : Prop where
  coeff : ∀ t, x.coeff = some t → good t
  rest : ∀ t, x.rest = some t → good t

namespace Halves.All

variable {good : Tree → Prop} {x y : Halves}

theorem map {f : Option Tree → Option (Option Tree)} (all : x.All good)
    (each : ∀ p q, (∀ t, p = some t → good t) → f p = some q → ∀ t, q = some t → good t)
    (eq : x.map f = some y) : y.All good := by
  obtain ⟨coeff, hc, eq⟩ := Option.bind_eq_some_iff.mp eq
  obtain ⟨rest, hr, ⟨⟩⟩ := Option.bind_eq_some_iff.mp eq
  exact ⟨each _ _ all.coeff hc, each _ _ all.rest hr⟩

end Halves.All

variable {good : Tree → Prop}

theorem Hereditary.negative (hereditary : Hereditary good) {p : Option Tree}
    (known : ∀ t, p = some t → good t) : ∀ t, negative p = some t → good t := by
  intro t eq
  obtain ⟨s, hs, rfl⟩ := Option.map_eq_some_iff.mp eq
  exact hereditary.unary _ s (known s hs)

theorem Hereditary.sumOf (hereditary : Hereditary good) {p q : Option Tree}
    (left : ∀ t, p = some t → good t) (right : ∀ t, q = some t → good t) :
    ∀ t, sumOf p q = some t → good t := by
  intro t eq
  cases p with
  | none => exact right t eq
  | some l =>
    cases q with
    | none => exact left t eq
    | some r =>
      cases eq
      exact hereditary.treeTree _ l r (left l rfl) (right r rfl)

theorem Hereditary.differenceOf (hereditary : Hereditary good) {p q : Option Tree}
    (left : ∀ t, p = some t → good t) (right : ∀ t, q = some t → good t) :
    ∀ t, differenceOf p q = some t → good t := by
  intro t eq
  cases q with
  | none => exact left t (by cases p <;> exact eq)
  | some r =>
    cases p with
    | none =>
      cases eq
      exact hereditary.unary _ r (right r rfl)
    | some l =>
      cases eq
      exact hereditary.treeTree _ l r (left l rfl) (right r rfl)

theorem Hereditary.scaled {op : BinaryOp} {unit : Tree} (known : good unit)
    {f : Tree → Option Tree} (each : ∀ t t', good t → f t = some t' → good t')
    {p q : Option Tree} (part : ∀ t, p = some t → good t)
    (eq : Tree.scaled op unit f p = some q) : ∀ t, q = some t → good t := by
  rintro t rfl
  cases p with
  | none => cases eq
  | some s =>
    obtain ⟨t', made, ⟨⟩⟩ := Option.map_eq_some_iff.mp eq
    split at made
    · cases made
      exact known
    · exact each s _ (part s rfl) made

theorem Hereditary.withValue (hereditary : Hereditary good) {op : BinaryOp} {v : Value}
    (value : good (.constant v)) {t t' : Tree} (known : good t)
    (eq : withValue op v t = some t') : good t' := by
  unfold Tree.withValue at eq
  split at eq
  next divides =>
    cases eq
    exact hereditary.treeValue op t v divides value known
  next => cases eq

theorem Hereditary.combine (hereditary : Hereditary good) (op : BinaryOp) {x y : Halves}
    (left : x.All good) (right : y.All good) : (x.combine op y).All good := by
  unfold Halves.combine
  split
  · exact ⟨hereditary.sumOf left.coeff right.coeff, hereditary.sumOf left.rest right.rest⟩
  · exact ⟨hereditary.differenceOf left.coeff right.coeff,
      hereditary.differenceOf left.rest right.rest⟩

theorem Hereditary.afterValue (hereditary : Hereditary good) (op : BinaryOp) {v : Value}
    (value : good (.constant v)) {x : Halves} (all : x.All good) :
    (x.afterValue op v).All good := by
  constructor
  · intro t eq
    unfold Halves.afterValue at eq
    dsimp only at eq
    split at eq
    · exact all.coeff t eq
    · exact hereditary.negative all.coeff t eq
  · rintro _ ⟨⟩
    cases found : x.rest with
    | none => exact value
    | some r => exact hereditary.valueTree op v r value (all.rest r found)

theorem Hereditary.beforeValue (hereditary : Hereditary good) {op : BinaryOp}
    (sum : op = .plus ∨ op = .minus) {v : Value} (value : good (.constant v)) {x : Halves}
    (all : x.All good) : (x.beforeValue op v).All good := by
  refine ⟨all.coeff, ?_⟩
  rintro _ ⟨⟩
  cases found : x.rest with
  | none =>
    rcases sum with rfl | rfl
    · exact value
    · exact hereditary.unary _ _ value
  | some r =>
    have divides : divisible op r v = true := by rcases sum with rfl | rfl <;> rfl
    exact hereditary.treeValue op r v divides value (all.rest r found)

/-- The halves of a good tree are good. -/
theorem Hereditary.halve (hereditary : Hereditary good) {var order : Nat} {t : Tree}
    (known : good t) {x : Halves} (eq : t.halve var order = some x) : x.All good := by
  have separates := separates_of_halve eq
  clear eq
  -- by the rules of decomposition
  induction separates with
  | plain below =>
    refine ⟨?_, ?_⟩ <;> intro t eq <;> cases eq
    exact known
  | jet =>
    refine ⟨?_, ?_⟩ <;> intro t eq <;> cases eq
    exact hereditary.one
  | uplus _ ih => exact ih (hereditary.child _ known _ List.mem_cons_self)
  | uminus _ ih =>
    have all := ih (hereditary.child _ known _ List.mem_cons_self)
    exact ⟨hereditary.negative all.coeff, hereditary.negative all.rest⟩
  | @sum op l r x y additive left right ihl ihr =>
    have goodl := hereditary.child _ known l List.mem_cons_self
    have goodr := hereditary.child _ known r (List.mem_cons_of_mem l List.mem_cons_self)
    exact hereditary.combine op (ihl goodl) (ihr goodr)
  | afterValue _ _ ih =>
    have value := hereditary.value _ known _ List.mem_cons_self
    exact hereditary.afterValue _ value (ih (hereditary.child _ known _ List.mem_cons_self))
  | beforeValue additive _ ih =>
    have value := hereditary.value _ known _ List.mem_cons_self
    exact hereditary.beforeValue additive value
      (ih (hereditary.child _ known _ List.mem_cons_self))
  | scale scaling _ eq ih =>
    cases scaling with
    | valueTimes v =>
      have value := hereditary.value _ known v List.mem_cons_self
      refine (ih (hereditary.child _ known _ List.mem_cons_self)).map (fun p q => ?_) eq
      apply Hereditary.scaled value
      intro t t' good made
      cases made
      exact hereditary.valueTree _ v t value good
    | byValue v =>
      have value := hereditary.value _ known v List.mem_cons_self
      refine (ih (hereditary.child _ known _ List.mem_cons_self)).map (fun p q => ?_) eq
      exact Hereditary.scaled value fun t t' good made => hereditary.withValue value good made
    | treeTimes =>
      have factor := hereditary.child _ known _ List.mem_cons_self
      have child := hereditary.child _ known _ (List.mem_cons_of_mem _ List.mem_cons_self)
      refine (ih child).map (fun p q => ?_) eq
      apply Hereditary.scaled factor
      intro t t' good made
      cases made
      exact hereditary.treeTree _ _ t factor good
    | byTree =>
      have factor := hereditary.child _ known _ (List.mem_cons_of_mem _ List.mem_cons_self)
      refine (ih (hereditary.child _ known _ List.mem_cons_self)).map (fun p q => ?_) eq
      apply Hereditary.scaled factor
      intro t t' good made
      cases made
      exact hereditary.treeTree _ t _ good factor

/-- So are the leading coefficient and the rest. -/
theorem Hereditary.lead (hereditary : Hereditary good) {var order : Nat} {t : Tree}
    (known : good t) {x : Tree × Option Tree} (eq : t.lead var order = some x) :
    good x.1 ∧ ∀ q, x.2 = some q → good q := by
  obtain ⟨y, found, eq⟩ := Option.bind_eq_some_iff.mp eq
  obtain ⟨c, coeff, ⟨⟩⟩ := Option.bind_eq_some_iff.mp eq
  have all := hereditary.halve known found
  exact ⟨all.coeff c coeff, all.rest⟩

theorem hereditary_solid : Hereditary fun t => t.solid = true where
  child _ := solid_of_child
  value _ _ _ _ := rfl
  one := rfl
  unary _ _ := id
  treeTree _ _ _ left right := Bool.and_eq_true_iff.mpr ⟨left, right⟩
  valueTree _ _ _ _ := id
  treeValue _ _ _ divides _ solid := Bool.and_eq_true_iff.mpr ⟨divides, solid⟩

theorem hereditary_isNormal : Hereditary fun t => t.isNormal = true where
  child _ := isNormal_of_child
  value _ _ _ _ := rfl
  one := rfl
  unary _ _ := id
  treeTree _ _ _ left right := Bool.and_eq_true_iff.mpr ⟨left, right⟩
  valueTree _ _ _ _ := id
  treeValue _ _ _ _ _ := id

theorem hereditary_real : Hereditary fun t => t.real = true where
  child t known c hc := by
    cases t <;> simp_all [children, real]
    next => rcases hc with rfl | rfl <;> tauto
  value t known v hv := by
    cases t <;> simp_all [ownValues, real]
  one := rfl
  unary _ _ := id
  treeTree _ _ _ left right := Bool.and_eq_true_iff.mpr ⟨left, right⟩
  valueTree _ _ _ value known := Bool.and_eq_true_iff.mpr ⟨value, known⟩
  treeValue _ _ _ _ value known := Bool.and_eq_true_iff.mpr ⟨known, value⟩

/-! ## The values of a tree -/

/-- The values that a tree mentions. -/
def values : Tree → List Value
  | .leaf _ | .independent | .slot .. => []
  | .constant v => [v]
  | .unary _ c => c.values
  | .valueTree _ v t => v :: t.values
  | .treeValue _ t v => v :: t.values
  | .treeTree _ l r => l.values ++ r.values
  | .derivative c _ => c.values

theorem hereditary_values {listed : Value → Prop} (one : listed (.number (.ofFloat 1))) :
    Hereditary fun t => ∀ v ∈ t.values, listed v where
  child t known c hc v hv := known v (by
    cases t <;> simp_all [children, values]
    next => rcases hc with rfl | rfl <;> tauto)
  value t known v hv u hu := by
    obtain rfl := List.mem_singleton.mp hu
    apply known
    cases t <;> simp_all [ownValues, values]
  one := by simpa [Tree.one, values] using one
  unary _ _ := id
  treeTree _ _ _ left right v hv := (List.mem_append.mp hv).elim (left v) (right v)
  valueTree _ v _ value known := by simpa [values] using ⟨value v (by simp [values]), known⟩
  treeValue _ _ v _ value known := by simpa [values] using ⟨value v (by simp [values]), known⟩

/-- Deriving a tree brings in no values but zero and one. -/
theorem Pushes.values {k : Nat} {t t' : Tree} (pushes : Pushes k t t') {listed : Value → Prop}
    (zero : listed (.number (.ofFloat 0))) (one : listed (.number (.ofFloat 1)))
    (known : ∀ v ∈ t.values, listed v) : ∀ v ∈ t'.values, listed v := by
  induction pushes with
  | leaf => exact known
  | independent =>
    intro v hv
    obtain rfl := List.mem_singleton.mp hv
    by_cases first : k = 1
    · rwa [if_pos first]
    · rwa [if_neg first]
  | constant =>
    intro v hv
    rwa [List.mem_singleton.mp hv]
  | derivative => exact known
  | sign _ _ ih => exact ih known
  | sum _ _ _ ihl ihr =>
    intro v hv
    rcases List.mem_append.mp hv with left | right
    · exact ihl (fun u hu => known u (List.mem_append_left _ hu)) v left
    · exact ihr (fun u hu => known u (List.mem_append_right _ hu)) v right
  | afterNumber _ ih | fromNumber _ ih | beforeNumber _ _ ih =>
    exact ih fun u hu => known u (List.mem_cons_of_mem _ hu)
  | timesNumber _ ih | scale _ _ ih =>
    intro v hv
    rcases List.mem_cons.mp hv with rfl | hv
    · exact known _ List.mem_cons_self
    · exact ih (fun u hu => known u (List.mem_cons_of_mem _ hu)) v hv

/-- Neither does the normal form. -/
theorem values_normalForm {t t' : Tree} (normal : t.normalForm = some t') {listed : Value → Prop}
    (zero : listed (.number (.ofFloat 0))) (one : listed (.number (.ofFloat 1)))
    (known : ∀ v ∈ t.values, listed v) : ∀ v ∈ t'.values, listed v := by
  induction t generalizing t' with
  | leaf | independent | constant | slot =>
    cases normal
    exact known
  | unary op c ih =>
    obtain ⟨c', child, rfl⟩ := Option.map_eq_some_iff.mp normal
    exact fun v hv => ih child known v hv
  | valueTree op v c ih | treeValue op c v ih =>
    obtain ⟨c', child, rfl⟩ := Option.map_eq_some_iff.mp normal
    have rest := ih child fun u hu => known u (List.mem_cons_of_mem _ hu)
    intro u hu
    rcases List.mem_cons.mp hu with rfl | hu
    · exact known _ List.mem_cons_self
    · exact rest u hu
  | treeTree op l r ihl ihr =>
    obtain ⟨l', left, normal⟩ := Option.bind_eq_some_iff.mp normal
    obtain ⟨r', right, rfl⟩ := Option.map_eq_some_iff.mp normal
    intro u hu
    rcases List.mem_append.mp hu with hu | hu
    · exact ihl left (fun u hu => known u (List.mem_append_left _ hu)) u hu
    · exact ihr right (fun u hu => known u (List.mem_append_right _ hu)) u hu
  | derivative c k ih =>
    obtain ⟨c', child, pushed⟩ := Option.bind_eq_some_iff.mp normal
    exact (pushes_of_push pushed).values zero one (ih child known)

end Tree

end JetForm
