import JetForm.Tree.Postorder

/-! # Extraction of the leading derivative

    Given a tree in normal form and its leading derivative `D`, the tree is
    written as

        coeff * D + rest

    where `coeff` depends on the independent variable only and `rest` does not
    contain `D`.  This works when `D` enters linearly: through sums,
    differences and signs, and through products and quotients with numbers,
    external functions and expressions of the independent variable.  Otherwise
    `D` is inseparable.

    A part of such a decomposition is a handle, or `none` for zero. -/

namespace JetForm

/-- A tree as `coeff * D + rest`; a `rest` of `none` is zero. -/
structure Leading where
  coeff : Nat
  rest : Option Nat

namespace Extract

/-- What is being extracted: an unknown, the order of its derivative, and the
    constant one. -/
structure Target where
  var : Nat
  order : Nat
  one : Nat

/-- Both parts of a decomposition; `none` stands for zero. -/
structure Parts where
  coeff : Option Nat
  rest : Option Nat

/-- Decompositions of the nodes met so far; `none` marks the inseparable ones. -/
abbrev Extracting := StateT (Std.HashMap Nat (Option Parts)) Building

namespace Target

/-- Does a node contain the leading derivative, or a higher one? -/
def isIn (target : Target) (a : Arena) (h : Nat) : Bool :=
  target.order ≤ (a.info h).diffOrder[target.var]?.getD 0

end Target

/-! ## Arithmetic with parts -/

def add : Option Nat → Option Nat → Building (Option Nat)
  | none, b => pure b
  | a, none => pure a
  | some a, some b => some <$> Arena.binary .plus (.treeTree a b)

def negate : Option Nat → Building (Option Nat)
  | none => pure none
  | some a => some <$> Arena.unary .uminus a

def subtract : Option Nat → Option Nat → Building (Option Nat)
  | a, none => pure a
  | none, some b => negate (some b)
  | some a, some b => some <$> Arena.binary .minus (.treeTree a b)

/-- A product or quotient with an external value. -/
def scaleByValue (target : Target) (op : BinaryOp) (value : Nat) (operands : Nat → Operands) :
    Option Nat → Building (Option Nat)
  | none => pure none
  | some a =>
    if a = target.one && op = .times then some <$> Arena.constant value
    else some <$> Arena.binary op (operands a)

/-- A product or quotient with a traced expression `tree`. -/
def scaleByTree (target : Target) (op : BinaryOp) (tree : Nat) (operands : Nat → Operands) :
    Option Nat → Building (Option Nat)
  | none => pure none
  | some a =>
    if a = target.one && op = .times then pure (some tree)
    else some <$> Arena.binary op (operands a)

/-- Apply an operation to the coefficient and then to the rest. -/
def Parts.mapM (f : Option Nat → Building (Option Nat)) (p : Parts) : Building Parts := do
  let coeff ← f p.coeff
  let rest ← f p.rest
  return ⟨coeff, rest⟩

/-- Combine two decompositions by a sum or a difference. -/
def Parts.combine (op : BinaryOp) (p q : Parts) : Building Parts := do
  let join := if op = .plus then add else subtract
  let coeff ← join p.coeff q.coeff
  let rest ← join p.rest q.rest
  return ⟨coeff, rest⟩

/-- Add the tree to, or subtract it from, an external value. -/
def Parts.afterValue (op : BinaryOp) (value : Nat) (p : Parts) : Building Parts := do
  let rest ←
    match p.rest with
    | some r => Arena.binary op (.valueTree value r)
    | none => Arena.constant value
  let coeff ← if op = .plus then pure p.coeff else negate p.coeff
  return ⟨coeff, some rest⟩

/-- Add an external value to the tree, or subtract it. -/
def Parts.beforeValue (op : BinaryOp) (value : Nat) (p : Parts) : Building Parts := do
  let rest ←
    match p.rest, op with
    | some r, _ => Arena.binary op (.treeValue r value)
    | none, .plus => Arena.constant value
    | none, _ => do Arena.unary .uminus (← Arena.constant value)
  return ⟨p.coeff, some rest⟩

/-! ## Decomposition -/

/-- Continue with a decomposition unless it is inseparable. -/
def onParts (p : Option Parts) (f : Parts → Building Parts) : Building (Option Parts) :=
  match p with
  | some p => some <$> f p
  | none => pure none

/-- Decompose a node. -/
def split (target : Target) (h : Nat) : Extracting (Option Parts) := do
  if let some known := (← get)[h]? then return known
  let a ← getThe Arena
  let result ←
    if !target.isIn a h then pure (some ⟨none, some h⟩)
    else
      match hn : a.node? h with
      | some (.derivative c k) =>
        pure (if k = target.order && a.node? c == some (.leaf target.var) then
          some ⟨some target.one, none⟩ else none)
      | some (.unary op c) =>
        have : c < h := a.child_lt h _ hn c (by simp [Node.children])
        match op with
        | .uplus => split target c
        | .uminus => do onParts (← split target c) (Parts.mapM negate)
        | _ => pure none
      | some (.binary op (.treeTree l r)) =>
        have : l < h := a.child_lt h _ hn l (by simp [Node.children, Operands.trees])
        have : r < h := a.child_lt h _ hn r (by simp [Node.children, Operands.trees])
        match op with
        | .plus | .minus => do
          let p ← split target l
          let q ← split target r
          match p, q with
          | some p, some q => some <$> Parts.combine op p q
          | _, _ => pure none
        | .times =>
          if target.isIn a l && target.isIn a r then pure none
          else if target.isIn a l then
            if (a.info r).mask ≠ 0 then pure none
            else do
              let p ← split target l
              onParts p (Parts.mapM (scaleByTree target .times r fun x => .treeTree x r))
          else
            if (a.info l).mask ≠ 0 then pure none
            else do
              let p ← split target r
              onParts p (Parts.mapM (scaleByTree target .times l fun x => .treeTree l x))
        | .rdivide =>
          if target.isIn a r || (a.info r).mask ≠ 0 then pure none
          else do
            let p ← split target l
            onParts p (Parts.mapM (scaleByTree target .rdivide r fun x => .treeTree x r))
        | .power => pure none
      | some (.binary op (.valueTree v t)) =>
        have : t < h := a.child_lt h _ hn t (by simp [Node.children, Operands.trees])
        match op with
        | .plus | .minus => do onParts (← split target t) (Parts.afterValue op v)
        | .times => do
          onParts (← split target t) (Parts.mapM (scaleByValue target .times v (.valueTree v)))
        | _ => pure none
      | some (.binary op (.treeValue t v)) =>
        have : t < h := a.child_lt h _ hn t (by simp [Node.children, Operands.trees])
        match op with
        | .plus | .minus => do onParts (← split target t) (Parts.beforeValue op v)
        | .times | .rdivide => do
          onParts (← split target t)
            (Parts.mapM (scaleByValue target op v fun x => .treeValue x v))
        | .power => pure none
      | _ => pure none
  modify (·.insert h result)
  return result
termination_by h

end Extract

/-- Write the tree below `root` as `coeff * D + rest`, where `D` is a derivative
    of an unknown.  The answer is `none` if `D` is inseparable.  A negative
    number counts the unknowns from the end, and is the unknown of no leaf. -/
def Arena.extractLeading (root : Nat) (var : Int) (order : Nat) : Building (Option Leading) := do
  let one ← constantOf (.number (.ofFloat 1))
  let size := (← get).size
  if size ≤ var || var < -size then throw .orderIndex
  match var with
  | .negSucc _ => return none
  | .ofNat var =>
    let parts ← (Extract.split ⟨var, order, one⟩ root).run' ∅
    match parts with
    | some ⟨some coeff, rest⟩ => return some ⟨coeff, rest⟩
    | _ => return none

end JetForm
