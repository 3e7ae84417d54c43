import JetForm.Error
import JetForm.Tree.Node
import JetForm.Tree.Value
import Std.Data.HashMap

/-! # Arenas

    An arena holds the nodes and the external values of one traced problem.
    Nodes are shared: building the same node twice gives the same handle, so an
    expression is a graph without cycles in which every child has a smaller
    handle than its parents.  Nothing that is stored ever changes; the tables
    only grow.

    Building happens in `Building`, a state monad whose state survives a
    failure: an operation that fails may already have interned a value. -/

namespace JetForm

/-- The nodes and values of one traced problem.

    * `size` is the number of unknowns;
    * `serial` tells this arena from others, for the origin of undefined
      quotients;
    * `index` and `valueIndex` find what is stored already. -/
structure Arena where
  size : Nat
  serial : Nat
  nodes : Array Node
  infos : Array Info
  index : Std.HashMap Node Nat
  values : Array Value
  valueIndex : Std.HashMap Value Nat
  /-- Children come before their parents. -/
  child_lt : ∀ (h : Nat) (node : Node), nodes[h]? = some node → ∀ c ∈ node.children, c < h

namespace Arena

/-- The arena without nodes and values. -/
def empty (size : Nat) (serial : Nat := 0) : Arena :=
  ⟨size, serial, #[], #[], ∅, #[], ∅, by simp⟩

instance : Inhabited Arena := ⟨empty 1⟩

/-- An arena for the given number of unknowns, of which there must be one. -/
def create (size : Int) (serial : Nat := 0) : Except Error Arena :=
  if size < 1 then .error .emptyRegistry else .ok (empty size.toNat serial)

/-! ## Reading -/

/-- Number of nodes. -/
def count (a : Arena) : Nat :=
  a.nodes.size

/-- The node with the given handle. -/
def node? (a : Arena) (h : Nat) : Option Node :=
  a.nodes[h]?

/-- The metadata of a node; handles of no node have those of a constant. -/
def info (a : Arena) (h : Nat) : Info :=
  a.infos[h]?.getD (.ofMask a.size 0)

/-- The external value with the given handle. -/
def value (a : Arena) (v : Nat) : Value :=
  a.values[v]?.getD default

/-- The children of a node. -/
def children (a : Arena) (h : Nat) : List Nat :=
  match a.node? h with
  | some node => node.children
  | none => []

/-- Is the node an unknown, a derivative or a state entry? -/
def isBare (a : Arena) (h : Nat) : Bool :=
  match a.node? h with
  | some node => node.isBare
  | none => false

theorem children_lt {a : Arena} {h c : Nat} (hc : c ∈ a.children h) : c < h := by
  unfold children at hc
  split at hc
  next node hn => exact a.child_lt h node hn c hc
  next => simp at hc

/-- A handle that a caller supplies as an integer. -/
def nodeHandle (a : Arena) (h : Int) : Except Error Nat :=
  if 0 ≤ h ∧ h.toNat < a.nodes.size then .ok h.toNat else .error (.invalidNode h)

/-- A value handle that a caller supplies as an integer. -/
def valueHandle (a : Arena) (v : Int) : Except Error Nat :=
  if 0 ≤ v ∧ v.toNat < a.values.size then .ok v.toNat else .error (.invalidValue v)

/-- Fail unless all handles are those of nodes. -/
def requireNodes (a : Arena) (handles : List Nat) : Except Error Unit :=
  if handles.all (· < a.nodes.size) then .ok () else .error .nodeIndex

end Arena

/-- Building nodes in an arena.  The arena survives a failure. -/
abbrev Building := EStateM Error Arena

namespace Arena

/-! ## Interning -/

/-- The handle of an external value, which is stored unless it is there. -/
def intern (v : Value) : Building Nat := fun a =>
  match a.valueIndex[v.key]? with
  | some h => .ok h a
  | none =>
    let h := a.values.size
    .ok h { a with values := a.values.push v, valueIndex := a.valueIndex.insert v.key h }

/-- The tables with one node more. -/
def push (a : Arena) (node : Node) (info : Info) (below : ∀ c ∈ node.children, c < a.nodes.size) :
    Arena :=
  { a with
    nodes := a.nodes.push node
    infos := a.infos.push info
    index := a.index.insert node a.nodes.size
    child_lt := by
      intro h n hn c hc
      rw [Array.getElem?_push] at hn
      split at hn
      next heq =>
        cases hn
        exact heq ▸ below c hc
      next => exact a.child_lt h n hn c hc }

/-- The handle of a node, which is stored unless it is there.  Children that are
    not stored are refused. -/
def internNode (node : Node) (info : Info) : Building Nat := fun a =>
  match a.index[node]? with
  | some h => .ok h a
  | none =>
    if below : ∀ c ∈ node.children, c < a.nodes.size then
      .ok a.nodes.size (a.push node info below)
    else .error (.invalidNode ((node.children.find? (a.nodes.size ≤ ·)).getD 0)) a

/-- Fail unless the node is stored. -/
def checkNode (h : Nat) : Building Info := fun a =>
  if h < a.nodes.size then .ok (a.info h) a else .error (.invalidNode h) a

/-- Fail unless the value is stored. -/
def checkValue (v : Nat) : Building Unit := fun a =>
  if v < a.values.size then .ok () a else .error (.invalidValue v) a

/-! ## Constructors -/

/-- An unknown. -/
def leaf (var : Int) : Building Nat := do
  let a ← get
  if 0 ≤ var ∧ var < a.size then
    internNode (.leaf var.toNat) (.ofMask a.size (1 <<< var.toNat))
  else throw (.leafOutside a.size var)

/-- The independent variable. -/
def independent : Building Nat := do
  internNode .independent (.ofMask (← get).size 0)

/-- An external value on its own. -/
def constant (v : Nat) : Building Nat := do
  checkValue v
  internNode (.constant v) (.ofMask (← get).size 0)

/-- An entry of the state vector. -/
def slot (index : Int) (var : Int) (order : Int) : Building Nat := do
  let a ← get
  if 0 ≤ var ∧ var < a.size then
    internNode (.slot index var.toNat order) (.ofMask a.size (1 <<< var.toNat))
  else throw (.slotOutside a.size var)

/-- A unary operation. -/
def unary (op : UnaryOp) (child : Nat) : Building Nat := do
  let c ← checkNode child
  internNode (.unary op child) (c.above c.coeff)

/-- A quotient that is undefined has its own origin, the place where its value
    will be stored. -/
def originate (a : Arena) (n : Number) : Number :=
  match n with
  | .double x origin => .double x (if x.isNaN then .quotient a.serial a.values.size else origin)
  | .wide x origin =>
    .wide x (if x.toFloat.isNaN then .quotient a.serial a.values.size else origin)
  | n => n

/-- The value that multiplies a bare tree which is divided by `v`: the interned
    reciprocal of a number other than zero. -/
def divisorCoeff (v : Value) : Building (Option Nat) :=
  match v with
  | .number n =>
    if n.isZero then pure none
    else match n.reciprocal with
      | .ok r => do
        let a ← get
        some <$> intern (.number (a.originate r))
      | .error f => throw (.fault f)
  | .external _ => pure none

/-- A binary operation.  A value that multiplies or divides a bare tree is
    recorded as its coefficient. -/
def binary (op : BinaryOp) (operands : Operands) : Building Nat := do
  match operands with
  | .valueTree value tree =>
    checkValue value
    let t ← checkNode tree
    let a ← get
    let coeff := if op = .times && a.isBare tree then some value else none
    internNode (.binary op operands) (t.above coeff)
  | .treeValue tree value =>
    checkValue value
    let t ← checkNode tree
    let a ← get
    let coeff ←
      if a.isBare tree then
        match op with
        | .times => pure (some value)
        | .rdivide => divisorCoeff (a.value value)
        | _ => pure none
      else pure none
    internNode (.binary op operands) (t.above coeff)
  | .treeTree left right =>
    let l ← checkNode left
    let r ← checkNode right
    internNode (.binary op operands) (l.join r)

/-- A derivative of positive order. -/
def derivative (child order : Nat) : Building Nat := do
  if order = 0 then throw (.orderNotPositive "0")
  let c ← checkNode child
  internNode (.derivative child order) (c.differentiate order)

/-- Intern a value and use it as a node. -/
def constantOf (v : Value) : Building Nat := do
  constant (← intern v)

end Arena

end JetForm
