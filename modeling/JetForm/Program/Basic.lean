import JetForm.Tree.Postorder
import JetForm.Tree.Unfold

/-! # Straight-line programs

    `Program.ofTrees` flattens trees into a list of instructions in evaluation
    order.  Instruction `i` writes register `i`; leaves are read where they are
    used and cost no instruction.  A shared sub-tree is emitted once, however
    many parents or roots refer to it.

    `Program.run` executes a program under any `Meaning`. -/

namespace JetForm

/-- What an instruction reads.  A constant keeps its handle, which names it in
    the generated text. -/
inductive Argument where
  | register (index : Nat)
  | state (slot : Int)
  | time
  | constant (handle : Nat) (v : Value)
  deriving DecidableEq

/-- An operation with its arguments. -/
inductive Instruction where
  | unary (op : UnaryOp) (x : Argument)
  | binary (op : BinaryOp) (x y : Argument)
  deriving DecidableEq

namespace Instruction

/-- The arguments, left to right. -/
def arguments : Instruction → List Argument
  | .unary _ x => [x]
  | .binary _ x y => [x, y]

/-- Name of the operation. -/
def name : Instruction → String
  | .unary op _ => op.name
  | .binary op _ _ => op.name

end Instruction

/-- Instructions, outputs, and what they read from outside: state slots and
    constants in increasing order, and whether they read the time. -/
structure Program where
  instructions : Array Instruction
  outputs : List Argument
  slots : List Int
  constants : List (Nat × Value)
  usesTime : Bool

namespace Program

/-! ## Lowering -/

/-- What is known while trees are being flattened: the argument that stands for
    each node met so far, and the parts of the program. -/
structure Lowering where
  arguments : Std.HashMap Nat Argument := ∅
  instructions : Array Instruction := #[]
  slots : List Int := []
  constants : List (Nat × Value) := []
  usesTime : Bool := false

/-- Put an entry in its place in an increasing list, unless it is there. -/
def insertSlot (s : Int) : List Int → List Int
  | [] => [s]
  | x :: xs => if s < x then s :: x :: xs else if s = x then x :: xs else x :: insertSlot s xs

/-- Put a constant in its place by handle, unless it is there. -/
def insertConstant (h : Nat) (v : Value) : List (Nat × Value) → List (Nat × Value)
  | [] => [(h, v)]
  | x :: xs =>
    if h < x.1 then (h, v) :: x :: xs else if h = x.1 then x :: xs
    else x :: insertConstant h v xs

namespace Lowering

/-- The argument of a node met before. -/
def argument (l : Lowering) (h : Nat) : Argument :=
  l.arguments[h]?.getD .time

/-- Let an argument stand for a node. -/
def stand (l : Lowering) (h : Nat) (x : Argument) : Lowering :=
  { l with arguments := l.arguments.insert h x }

/-- Read a state slot. -/
def readSlot (l : Lowering) (s : Int) : Lowering :=
  { l with slots := insertSlot s l.slots }

/-- Read a constant. -/
def readConstant (l : Lowering) (h : Nat) (v : Value) : Lowering :=
  { l with constants := insertConstant h v l.constants }

/-- Append an instruction, whose register stands for a node. -/
def emit (l : Lowering) (h : Nat) (i : Instruction) : Lowering :=
  let register := Argument.register l.instructions.size
  { l.stand h register with instructions := l.instructions.push i }

/-- Flatten one node.  `leafSlot` gives the state slot of a bare unknown. -/
def meet (a : Arena) (leafSlot : Nat → Option Int) (l : Lowering) (h : Nat) (node : Node) :
    Except Error Lowering :=
  match node with
  | .leaf var =>
    match leafSlot var with
    | some s => .ok ((l.readSlot s).stand h (.state s))
    | none => .error (.missingLeaf var)
  | .slot index _ _ => .ok ((l.readSlot index).stand h (.state index))
  | .independent => .ok ({ l with usesTime := true }.stand h .time)
  | .constant v => .ok ((l.readConstant v (a.value v)).stand h (.constant v (a.value v)))
  | .unary op child => .ok (l.emit h (.unary op (l.argument child)))
  | .binary op (.valueTree v t) =>
    .ok ((l.readConstant v (a.value v)).emit h
      (.binary op (.constant v (a.value v)) (l.argument t)))
  | .binary op (.treeValue t v) =>
    .ok ((l.readConstant v (a.value v)).emit h
      (.binary op (l.argument t) (.constant v (a.value v))))
  | .binary op (.treeTree x y) => .ok (l.emit h (.binary op (l.argument x) (l.argument y)))
  | .derivative _ _ => .error (.derivativeLeft (a.info h).firstVar)

end Lowering

/-- Slot `i` for unknown `i`. -/
def ownSlot (var : Nat) : Option Int :=
  some var

/-- Flatten the trees below some handles; output `k` is the value of root `k`. -/
def ofTrees (a : Arena) (roots : List Nat) (leafSlot : Nat → Option Int := ownSlot) :
    Except Error Program := do
  a.requireNodes roots
  let l ← a.sweepM roots {} (Lowering.meet a leafSlot)
  return ⟨l.instructions, roots.map l.argument, l.slots, l.constants, l.usesTime⟩

/-! ## Execution -/

section

variable {α : Type u} (m : Meaning α) (registers : Array α)

/-- The value of an argument, given the registers written so far. -/
def read : Argument → α
  | .register i => registers[i]?.getD m.time
  | .state s => m.state s
  | .time => m.time
  | .constant _ v => m.value v

/-- The value that an instruction writes. -/
def evaluate : Instruction → α
  | .unary op x => m.unary op (read m registers x)
  | .binary op x y => m.binary op (read m registers x) (read m registers y)

end

/-- All registers after the last instruction. -/
def registers {α : Type u} (p : Program) (m : Meaning α) : Array α :=
  p.instructions.foldl (fun regs i => regs.push (evaluate m regs i)) #[]

/-- The outputs of a program. -/
def run {α : Type u} (p : Program) (m : Meaning α) : List α :=
  let regs := p.registers m
  p.outputs.map (read m regs)

end Program

end JetForm
