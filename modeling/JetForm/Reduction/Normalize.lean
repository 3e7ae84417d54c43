import JetForm.Tree.Copy
import JetForm.Tree.Postorder

/-! # Normal form of derivatives

    In normal form every derivative sits on an unknown, as in `diff(u, 3)`.
    Derivatives of compound expressions are pushed through linear structure:

    - sums, differences and signs term by term,
    - products and quotients with a number on the other factor,
    - derivatives of derivatives by adding the orders,
    - the independent variable to `1.0` or `0.0`, and constants to `0.0`.

    All else would need symbolic differentiation and is refused. -/

namespace JetForm

namespace Normalize

/-- What has been built so far: the normal form of nodes, and derivatives of
    normal nodes by order. -/
structure Memo where
  normal : Std.HashMap Nat Nat := ∅
  derivatives : Std.HashMap (Nat × Nat) Nat := ∅

/-- Building with the memory of earlier results. -/
abbrev Normalizing := StateT Memo Building

/-- Fail because a derivative does not pass through an operation. -/
def refuse {α : Type} (h : Nat) (op : String) : Normalizing α := do
  throw (.symbolicDerivative op ((← getThe Arena).info h).firstVar)

/-- Fail unless the value is a number. -/
def needNumber (h v : Nat) (op : BinaryOp) : Normalizing Unit := do
  if ((← getThe Arena).value v).isNumber then pure () else refuse h op.name

/-- The derivative of order `k` of a node in normal form. -/
def push (h k : Nat) : Normalizing Nat := do
  if let some known := (← get).derivatives[(h, k)]? then return known
  let a ← getThe Arena
  let result ←
    match hn : a.node? h with
    | some (.leaf _) => Arena.derivative h k
    | some (.derivative c order) => Arena.derivative c (order + k)
    | some .independent => Arena.constantOf (.number (.ofFloat (if k = 1 then 1 else 0)))
    | some (.constant _) => Arena.constantOf (.number (.ofFloat 0))
    | some (.unary op c) =>
      have : c < h := a.child_lt h _ hn c (by simp [Node.children])
      if op.isSign then Arena.unary op (← push c k) else refuse h op.name
    | some (.binary op (.treeTree l r)) =>
      have : l < h := a.child_lt h _ hn l (by simp [Node.children, Operands.trees])
      have : r < h := a.child_lt h _ hn r (by simp [Node.children, Operands.trees])
      match op with
      | .plus | .minus => do
        let l ← push l k
        let r ← push r k
        Arena.binary op (.treeTree l r)
      | _ => refuse h op.name
    | some (.binary op (.valueTree v t)) =>
      have : t < h := a.child_lt h _ hn t (by simp [Node.children, Operands.trees])
      match op with
      | .plus => do
        needNumber h v op
        push t k
      | .minus => do
        needNumber h v op
        Arena.unary .uminus (← push t k)
      | .times => do
        needNumber h v op
        Arena.binary .times (.valueTree v (← push t k))
      | _ => refuse h op.name
    | some (.binary op (.treeValue t v)) =>
      have : t < h := a.child_lt h _ hn t (by simp [Node.children, Operands.trees])
      match op with
      | .plus | .minus => do
        needNumber h v op
        push t k
      | .times | .rdivide => do
        needNumber h v op
        Arena.binary op (.treeValue (← push t k) v)
      | .power => refuse h op.name
    | _ => refuse h "diff"
  modify fun memo => { memo with derivatives := memo.derivatives.insert (h, k) result }
  return result
termination_by h

/-- The normal form known for a node. -/
def known (h : Nat) : Normalizing Nat := do
  return (← get).normal[h]?.getD h

/-- Find the normal form of one node, those of its children being known. -/
def meet (h : Nat) (node : Node) : Normalizing Unit := do
  let memo ← get
  if memo.normal.contains h then return
  let result ←
    match node with
    | .derivative c order => push (← known c) order
    | node => Arena.copyNode (fun c => memo.normal[c]?.getD c) h node
  modify fun memo => { memo with normal := memo.normal.insert h result }

/-- The normal form of one tree. -/
def root (h : Nat) : Normalizing Nat := do
  let a ← getThe Arena
  MonadExcept.ofExcept (a.requireNodes [h])
  a.sweepM [h] () fun _ h node => meet h node
  known h

end Normalize

/-- The normal forms of some trees of one arena. -/
def Arena.normalize (roots : List Nat) : Building (List Nat) :=
  (roots.mapM Normalize.root : Normalize.Normalizing (List Nat)).run' {}

end JetForm
