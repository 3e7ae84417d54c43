import JetForm.Proofs.Program.Reading
import Mathlib.Data.List.Induction
import Mathlib.Data.List.Perm.Subperm

/-! # What a program consists of

    A program has one instruction for each operation below the roots, however
    often the operation is shared.  So the list of these operations, in the order
    in which they are met, determines the program: a leaf is read where it is
    used, and an operation is read from the register with its place in the list.
    `argumentOf` and `instructionOf` say this of a single node.

    While trees are flattened `Lowering.Records` is the invariant.  It counts
    the instructions, and it compares the accumulated symbols with what the nodes
    met so far mention.  At the end every node that mentions a symbol is either a
    root, so the symbol is an output, or a child of an operation, so it is an
    argument of an instruction: what is listed is what is read. -/

namespace JetForm

universe u

/-- Is the node an operation, which takes an instruction? -/
def Node.isOperation : Node → Bool
  | .unary .. | .binary .. => true
  | _ => false

namespace Arena

/-- Is the node with this handle an operation? -/
def isOperation (a : Arena) (h : Nat) : Bool :=
  (a.node? h).any Node.isOperation

variable {a : Arena} {h : Nat} {node : Node}

theorem isOperation_eq (hn : a.node? h = some node) : a.isOperation h = node.isOperation := by
  simp [isOperation, hn]

end Arena

namespace Program

section

variable (a : Arena) (leafSlot : Nat → Option Int)

/-! ## Nodes as arguments and instructions -/

/-- The symbols that a node mentions by itself. -/
def symbolsOf : Node → List Argument
  | .leaf var => (leafSlot var).toList.map .state
  | .slot index _ _ => [.state index]
  | .independent => [.time]
  | .constant v | .binary _ (.valueTree v _) | .binary _ (.treeValue _ v) =>
    [.constant v (a.value v)]
  | .binary _ (.treeTree ..) | .unary .. | .derivative .. => []

/-- The argument that stands for a node: the register of an operation, where
    `operations` are those that have one, and the symbol of any other node. -/
def argumentOf (operations : List Nat) (h : Nat) : Option Argument := do
  let node ← a.node? h
  if node.isOperation then (operations.idxOf? h).map .register
  else (symbolsOf a leafSlot node).head?

/-- The instruction of an operation. -/
def instructionOf (operations : List Nat) : Node → Option Instruction
  | .unary op c => (argumentOf a leafSlot operations c).map (.unary op)
  | .binary op (.valueTree v t) =>
    (argumentOf a leafSlot operations t).map (.binary op (.constant v (a.value v)))
  | .binary op (.treeValue t v) =>
    (argumentOf a leafSlot operations t).map (.binary op · (.constant v (a.value v)))
  | .binary op (.treeTree l r) => do
    let x ← argumentOf a leafSlot operations l
    (argumentOf a leafSlot operations r).map (.binary op x)
  | _ => none

/-! ## Reading and listing -/

/-- An instruction or an output of the program reads the argument. -/
def Reads (p : Program) (x : Argument) : Prop :=
  (∃ i ∈ p.instructions, x ∈ i.arguments) ∨ x ∈ p.outputs

/-- The argument is among the symbols that the program lists. -/
def Lists (p : Program) : Argument → Prop
  | .state s => s ∈ p.slots
  | .time => p.usesTime = true
  | .constant h v => (h, v) ∈ p.constants
  | .register _ => False

/-- What a program consists of, told by the nodes below its roots.  Its
    `operations` are those below the roots, each once. -/
structure Flattens (roots operations : List Nat) (p : Program) : Prop where
  nodup : operations.Nodup
  mem : ∀ h, h ∈ operations ↔ a.isOperation h = true ∧ ∃ r ∈ roots, a.Reaches r h
  size : p.instructions.size = operations.length
  instruction : ∀ i h, operations[i]? = some h → ∃ node x, a.node? h = some node ∧
    p.instructions[i]? = some x ∧ instructionOf a leafSlot (operations.take i) node = some x
  outputs : List.Forall₂ (fun r x => argumentOf a leafSlot operations r = some x) roots p.outputs
  slots : p.slots.Pairwise (· < ·)
  constants : p.constants.Pairwise fun c d => c.1 < d.1
  lists : ∀ x, p.Lists x ↔ ∃ r ∈ roots, ∃ h node, a.Reaches r h ∧ a.node? h = some node ∧
    x ∈ symbolsOf a leafSlot node

end

/-- The same told by the program itself. -/
structure WellFormed (p : Program) : Prop where
  /-- Instruction `i` reads registers below `i`, -/
  below : ∀ i (x : Instruction), p.instructions[i]? = some x →
    ∀ j, .register j ∈ x.arguments → j < i
  /-- and register `i` holds what it computes. -/
  writes : ∀ {α : Type u} (m : Meaning α) (i : Nat) (x : Instruction), p.instructions[i]? = some x →
    (p.registers m)[i]? = some (evaluate m (p.registers m) x)
  /-- An output is a register that is written, or it is listed. -/
  outputs : ∀ x ∈ p.outputs, (∃ i < p.instructions.size, x = .register i) ∨ p.Lists x
  /-- Slots and constants are listed once, in increasing order, -/
  slots : p.slots.Pairwise (· < ·)
  constants : p.constants.Pairwise fun c d => c.1 < d.1
  /-- and what is listed is what is read. -/
  lists : ∀ x, (∀ i, x ≠ .register i) → (p.Lists x ↔ p.Reads x)

variable {a : Arena} {leafSlot : Nat → Option Int} {operations : List Nat} {h : Nat} {node : Node}

/-! ## Arguments and symbols of a node -/

theorem argumentOf_operation (hn : a.node? h = some node) (operation : node.isOperation = true) :
    argumentOf a leafSlot operations h = (operations.idxOf? h).map .register := by
  simp [argumentOf, hn, operation]

theorem argumentOf_leaf (hn : a.node? h = some node) (leaf : node.isOperation = false) :
    argumentOf a leafSlot operations h = (symbolsOf a leafSlot node).head? := by
  simp [argumentOf, hn, leaf]

/-- Only an operation mentions a symbol besides what it reads from a child, and
    then only one. -/
theorem mem_symbolsOf_iff_head? {x : Argument} :
    x ∈ symbolsOf a leafSlot node ↔ (symbolsOf a leafSlot node).head? = some x := by
  rcases node with var | _ | v | ⟨index, var, order⟩ | ⟨op, c⟩ | ⟨op, ⟨v, t⟩ | ⟨t, v⟩ | ⟨l, r⟩⟩ | ⟨c, k⟩
  case leaf => cases slot : leafSlot var <;> simp [symbolsOf, slot, eq_comm]
  all_goals simp [symbolsOf, eq_comm]

/-- A symbol is no register. -/
theorem register_not_mem_symbolsOf {i : Nat} : .register i ∉ symbolsOf a leafSlot node := by
  rcases node with var | _ | v | ⟨index, var, order⟩ | ⟨op, c⟩ | ⟨op, ⟨v, t⟩ | ⟨t, v⟩ | ⟨l, r⟩⟩ | ⟨c, k⟩ <;>
    simp [symbolsOf]

theorem value_of_mem_symbolsOf {v : Nat} {value : Value}
    (mentions : .constant v value ∈ symbolsOf a leafSlot node) : value = a.value v := by
  rcases node with var | _ | v | ⟨index, var, order⟩ | ⟨op, c⟩ | ⟨op, ⟨v, t⟩ | ⟨t, v⟩ | ⟨l, r⟩⟩ | ⟨c, k⟩ <;>
    simp_all [symbolsOf]

theorem idxOf?_append {l more : List Nat} {i : Nat} (known : l.idxOf? h = some i) :
    (l ++ more).idxOf? h = some i := by
  obtain ⟨inside, entry, first⟩ := List.idxOf?_eq_some_iff.mp known
  refine List.idxOf?_eq_some_iff.mpr ⟨by simp; omega, ?_, ?_⟩
  · rwa [List.getElem_append_left inside]
  · intro j before
    rw [List.getElem_append_left (by omega)]
    exact first j before

/-- Later operations do not change the argument of a node. -/
theorem argumentOf_append {x : Argument} (more : List Nat)
    (known : argumentOf a leafSlot operations h = some x) :
    argumentOf a leafSlot (operations ++ more) h = some x := by
  cases hn : a.node? h with
  | none => simp [argumentOf, hn] at known
  | some node =>
    cases kind : node.isOperation with
    | false => rwa [argumentOf_leaf hn kind] at known ⊢
    | true =>
      rw [argumentOf_operation hn kind] at known ⊢
      obtain ⟨i, place, rfl⟩ := Option.map_eq_some_iff.mp known
      rw [idxOf?_append place]
      rfl

/-- A register is read for an operation that has one, and anything else is a
    symbol of the node. -/
theorem argumentOf_eq {x : Argument} (known : argumentOf a leafSlot operations h = some x) :
    (∃ i < operations.length, x = .register i) ∨
      ∃ node, a.node? h = some node ∧ x ∈ symbolsOf a leafSlot node := by
  cases hn : a.node? h with
  | none => simp [argumentOf, hn] at known
  | some node =>
    cases kind : node.isOperation with
    | false =>
      rw [argumentOf_leaf hn kind] at known
      exact Or.inr ⟨node, rfl, mem_symbolsOf_iff_head?.mpr known⟩
    | true =>
      rw [argumentOf_operation hn kind] at known
      obtain ⟨i, place, rfl⟩ := Option.map_eq_some_iff.mp known
      obtain ⟨inside, -, -⟩ := List.idxOf?_eq_some_iff.mp place
      exact Or.inl ⟨i, inside, rfl⟩

/-- What an instruction reads: the arguments of the children, and the symbols of
    the operation itself. -/
theorem mem_arguments_iff {i : Instruction}
    (known : instructionOf a leafSlot operations node = some i) {x : Argument} :
    x ∈ i.arguments ↔ (∃ c ∈ node.children, argumentOf a leafSlot operations c = some x) ∨
      x ∈ symbolsOf a leafSlot node := by
  rcases node with var | _ | v | ⟨index, var, order⟩ | ⟨op, c⟩ | ⟨op, ⟨v, t⟩ | ⟨t, v⟩ | ⟨l, r⟩⟩ | ⟨c, k⟩
  case unary =>
    obtain ⟨y, hy, rfl⟩ := Option.map_eq_some_iff.mp known
    simp [Instruction.arguments, Node.children, symbolsOf, hy, eq_comm]
  case binary.valueTree =>
    obtain ⟨y, hy, rfl⟩ := Option.map_eq_some_iff.mp known
    simp [Instruction.arguments, Node.children, Operands.trees, symbolsOf, hy, eq_comm, or_comm]
  case binary.treeValue =>
    obtain ⟨y, hy, rfl⟩ := Option.map_eq_some_iff.mp known
    simp [Instruction.arguments, Node.children, Operands.trees, symbolsOf, hy, eq_comm]
  case binary.treeTree =>
    obtain ⟨y, hy, rest⟩ := Option.bind_eq_some_iff.mp known
    obtain ⟨z, hz, rfl⟩ := Option.map_eq_some_iff.mp rest
    simp [Instruction.arguments, Node.children, Operands.trees, symbolsOf, hy, hz, eq_comm]
  all_goals cases known

/-! ## Sorted symbols -/

theorem insertSlot_sorted {s : Int} {slots : List Int} (sorted : slots.Pairwise (· < ·)) :
    (insertSlot s slots).Pairwise (· < ·) := by
  induction slots with
  | nil => exact List.pairwise_singleton _ s
  | cons x slots ih =>
    obtain ⟨above, rest⟩ := List.pairwise_cons.mp sorted
    rw [insertSlot]
    split
    next less =>
      refine List.pairwise_cons.mpr ⟨fun y hy => ?_, sorted⟩
      rcases List.mem_cons.mp hy with rfl | hy
      · exact less
      · exact less.trans (above y hy)
    next =>
      split
      next => exact sorted
      next =>
        refine List.pairwise_cons.mpr ⟨fun y hy => ?_, ih rest⟩
        rcases mem_insertSlot.mp hy with rfl | hy
        · omega
        · exact above y hy

theorem mem_insertConstant_iff {k : Nat} {v : Value} {listed : List (Nat × Value)}
    (same : ∀ c ∈ listed, c.1 = k → c.2 = v) {c : Nat × Value} :
    c ∈ insertConstant k v listed ↔ c = (k, v) ∨ c ∈ listed := by
  induction listed with
  | nil => simp [insertConstant]
  | cons x listed ih =>
    rw [insertConstant]
    split
    · exact List.mem_cons
    · split
      next there =>
        have present : (k, v) = x := Prod.ext there (same x List.mem_cons_self there.symm).symm
        rw [present]
        simp
      next =>
        rw [List.mem_cons, List.mem_cons, ih fun c hc => same c (List.mem_cons_of_mem x hc)]
        exact or_left_comm

theorem insertConstant_sorted {k : Nat} {v : Value} {listed : List (Nat × Value)}
    (same : ∀ c ∈ listed, c.1 = k → c.2 = v) (sorted : listed.Pairwise fun c d => c.1 < d.1) :
    (insertConstant k v listed).Pairwise fun c d => c.1 < d.1 := by
  induction listed with
  | nil => exact List.pairwise_singleton _ (k, v)
  | cons x listed ih =>
    have later := fun c hc => same c (List.mem_cons_of_mem x hc)
    obtain ⟨above, rest⟩ := List.pairwise_cons.mp sorted
    rw [insertConstant]
    split
    next less =>
      refine List.pairwise_cons.mpr ⟨fun c hc => ?_, sorted⟩
      rcases List.mem_cons.mp hc with rfl | hc
      · exact less
      · exact less.trans (above c hc)
    next =>
      split
      next => exact sorted
      next =>
        refine List.pairwise_cons.mpr ⟨fun c hc => ?_, ih later rest⟩
        rcases (mem_insertConstant_iff later).mp hc with rfl | hc
        · show x.1 < k
          omega
        · exact above c hc

/-! ## The invariant -/

namespace Lowering

/-- The argument is among the symbols that have been read so far. -/
def Lists (l : Lowering) : Argument → Prop
  | .state s => s ∈ l.slots
  | .time => l.usesTime = true
  | .constant h v => (h, v) ∈ l.constants
  | .register _ => False

/-- The symbols so far are those that the nodes `before` mention, in order. -/
structure Symbols (a : Arena) (leafSlot : Nat → Option Int) (before : List Nat) (l : Lowering) :
    Prop where
  slots : l.slots.Pairwise (· < ·)
  constants : l.constants.Pairwise fun c d => c.1 < d.1
  lists : ∀ x, l.Lists x ↔
    ∃ h ∈ before, ∃ node, a.node? h = some node ∧ x ∈ symbolsOf a leafSlot node

/-- There is an instruction for each operation in `before`, and an argument for
    each node. -/
structure Records (a : Arena) (leafSlot : Nat → Option Int) (before : List Nat) (l : Lowering) :
    Prop where
  argument : ∀ h ∈ before, ∃ x, l.arguments[h]? = some x ∧
    argumentOf a leafSlot (before.filter a.isOperation) h = some x
  size : l.instructions.size = (before.filter a.isOperation).length
  instruction : ∀ i h, (before.filter a.isOperation)[i]? = some h → ∃ node x,
    a.node? h = some node ∧ l.instructions[i]? = some x ∧
      instructionOf a leafSlot ((before.filter a.isOperation).take i) node = some x
  symbols : Symbols a leafSlot before l

variable {l : Lowering} {before : List Nat}

theorem Symbols.value (symbols : Symbols a leafSlot before l) {k : Nat} {v : Value}
    (listed : (k, v) ∈ l.constants) : v = a.value k := by
  obtain ⟨h, -, node, -, mentions⟩ := (symbols.lists (.constant k v)).mp listed
  exact value_of_mem_symbolsOf mentions

/-- After a node its symbols are listed too, and no other. -/
theorem Symbols.met {l' : Lowering} (symbols : Symbols a leafSlot before l)
    (hn : a.node? h = some node) (slots : l'.slots.Pairwise (· < ·))
    (constants : l'.constants.Pairwise fun c d => c.1 < d.1)
    (more : ∀ x, l'.Lists x ↔ x ∈ symbolsOf a leafSlot node ∨ l.Lists x) :
    Symbols a leafSlot (before ++ [h]) l' := by
  refine ⟨slots, constants, fun x => ?_⟩
  rw [more, symbols.lists]
  constructor
  · rintro (mentions | ⟨g, hg, known⟩)
    · exact ⟨h, by simp, node, hn, mentions⟩
    · exact ⟨g, by simp [hg], known⟩
  · rintro ⟨g, hg, other, gn, mentions⟩
    rcases List.mem_append.mp hg with hg | hg
    · exact Or.inr ⟨g, hg, other, gn, mentions⟩
    · obtain rfl := List.mem_singleton.mp hg
      rw [hn] at gn
      cases gn
      exact Or.inl mentions

/-- Meeting a leaf: an argument stands for the node, and nothing is computed. -/
theorem Records.stand {l' : Lowering} {x : Argument} (records : Records a leafSlot before l)
    (arguments : l'.arguments = l.arguments) (instructions : l'.instructions = l.instructions)
    (hn : a.node? h = some node) (leaf : node.isOperation = false)
    (symbol : x ∈ symbolsOf a leafSlot node) (symbols : Symbols a leafSlot (before ++ [h]) l') :
    Records a leafSlot (before ++ [h]) (l'.stand h x) := by
  have operations : (before ++ [h]).filter a.isOperation = before.filter a.isOperation := by
    simp [Arena.isOperation_eq hn, leaf]
  refine ⟨?_, ?_, ?_, symbols.slots, symbols.constants, symbols.lists⟩
  · intro g hg
    rw [operations]
    by_cases same : h = g
    · subst same
      refine ⟨x, by simp [Lowering.stand], ?_⟩
      rw [argumentOf_leaf hn leaf]
      exact mem_symbolsOf_iff_head?.mp symbol
    · have hg : g ∈ before := by simpa [Ne.symm same] using hg
      obtain ⟨y, known, argument⟩ := records.argument g hg
      refine ⟨y, ?_, argument⟩
      simpa [Lowering.stand, same, Std.HashMap.getElem?_insert, arguments] using known
  · rw [operations]
    exact (congrArg Array.size instructions).trans records.size
  · rw [operations]
    intro i g place
    obtain ⟨other, y, gn, emitted, instruction⟩ := records.instruction i g place
    exact ⟨other, y, gn, (congrArg (·[i]?) instructions).trans emitted, instruction⟩

/-- Meeting an operation: its instruction is the next one. -/
theorem Records.emit (l' : Lowering) {x : Instruction} (records : Records a leafSlot before l)
    (arguments : l'.arguments = l.arguments) (instructions : l'.instructions = l.instructions)
    (hn : a.node? h = some node) (operation : node.isOperation = true) (fresh : h ∉ before)
    (known : instructionOf a leafSlot (before.filter a.isOperation) node = some x)
    (symbols : Symbols a leafSlot (before ++ [h]) l') :
    Records a leafSlot (before ++ [h]) (l'.emit h x) := by
  have operations :
      (before ++ [h]).filter a.isOperation = before.filter a.isOperation ++ [h] := by
    simp [Arena.isOperation_eq hn, operation]
  have size : l'.instructions.size = (before.filter a.isOperation).length := by
    rw [instructions, records.size]
  refine ⟨?_, ?_, ?_, symbols.slots, symbols.constants, symbols.lists⟩
  · intro g hg
    rw [operations]
    by_cases same : h = g
    · -- the new register is the next place among the operations
      subst same
      refine ⟨.register l'.instructions.size, by simp [Lowering.emit, Lowering.stand], ?_⟩
      rw [argumentOf_operation hn operation, size, Option.map_eq_some_iff]
      refine ⟨_, List.idxOf?_eq_some_iff.mpr ⟨by simp, by simp, ?_⟩, rfl⟩
      intro j inside entry
      rw [List.getElem_append_left inside] at entry
      exact fresh (List.mem_filter.mp (entry ▸ List.getElem_mem inside)).1
    · have hg : g ∈ before := by simpa [Ne.symm same] using hg
      obtain ⟨y, known, argument⟩ := records.argument g hg
      refine ⟨y, ?_, argumentOf_append [h] argument⟩
      simpa [Lowering.emit, Lowering.stand, same, Std.HashMap.getElem?_insert, arguments]
        using known
  · rw [operations, List.length_append, ← size]
    simp [Lowering.emit]
  · -- the instruction depends on the operations before it alone, which stay
    rw [operations]
    intro i g place
    by_cases last : i = (before.filter a.isOperation).length
    · subst last
      have same : h = g := by simpa using place
      subst same
      refine ⟨node, x, hn, ?_, ?_⟩
      · simp [Lowering.emit, ← size]
      · rwa [List.take_left]
    · have inside : i < (before.filter a.isOperation).length := by
        have := (List.getElem?_eq_some_iff.mp place).1
        simp only [List.length_append, List.length_singleton] at this
        omega
      rw [List.getElem?_append_left inside] at place
      obtain ⟨other, y, gn, emitted, instruction⟩ := records.instruction i g place
      refine ⟨other, y, gn, ?_, ?_⟩
      · show (l'.instructions.push x)[i]? = some y
        rw [Array.getElem?_push_lt (by omega), ← Array.getElem?_eq_getElem, instructions, emitted]
      · rwa [List.take_append_of_le_length inside.le]

/-! ## Meeting a node -/

theorem lists_readSlot {s : Int} {x : Argument} :
    (l.readSlot s).Lists x ↔ x = .state s ∨ l.Lists x := by
  cases x <;> simp [Lists, Lowering.readSlot, mem_insertSlot]

theorem Symbols.readSlot {s : Int} (symbols : Symbols a leafSlot before l)
    (hn : a.node? h = some node) (mentions : symbolsOf a leafSlot node = [.state s]) :
    Symbols a leafSlot (before ++ [h]) (l.readSlot s) := by
  refine symbols.met hn (insertSlot_sorted symbols.slots) symbols.constants fun x => ?_
  rw [lists_readSlot, mentions, List.mem_singleton]

theorem Symbols.readTime (symbols : Symbols a leafSlot before l)
    (hn : a.node? h = some node) (mentions : symbolsOf a leafSlot node = [.time]) :
    Symbols a leafSlot (before ++ [h]) { l with usesTime := true } := by
  refine symbols.met hn symbols.slots symbols.constants fun x => ?_
  rw [mentions, List.mem_singleton]
  cases x <;> simp [Lists]

theorem Symbols.readConstant {v : Nat} (symbols : Symbols a leafSlot before l)
    (hn : a.node? h = some node)
    (mentions : symbolsOf a leafSlot node = [.constant v (a.value v)]) :
    Symbols a leafSlot (before ++ [h]) (l.readConstant v (a.value v)) := by
  -- a constant that is listed already is listed with the value of its handle
  have same : ∀ c ∈ l.constants, c.1 = v → c.2 = a.value v := by
    rintro ⟨k, value⟩ listed rfl
    exact symbols.value listed
  refine symbols.met hn symbols.slots (insertConstant_sorted same symbols.constants) fun x => ?_
  rw [mentions, List.mem_singleton]
  cases x <;> simp [Lists, Lowering.readConstant, mem_insertConstant_iff same]

/-- An operation without symbols lists nothing. -/
theorem Symbols.skip (symbols : Symbols a leafSlot before l) (hn : a.node? h = some node)
    (mentions : symbolsOf a leafSlot node = []) : Symbols a leafSlot (before ++ [h]) l := by
  refine symbols.met hn symbols.slots symbols.constants fun x => ?_
  simp [mentions]

/-- A node that is met after its children is recorded, unless it is refused. -/
theorem meet_records {roots : List Nat} (records : Records a leafSlot before l)
    (turn : a.Turn roots before h node) :
    Ended (meet a leafSlot l h node) (Records a leafSlot (before ++ [h])) fun _ => True := by
  have hn := turn.stored
  have symbols := records.symbols
  have child : ∀ c ∈ node.children,
      argumentOf a leafSlot (before.filter a.isOperation) c = some (l.argument c) := by
    intro c hc
    obtain ⟨x, known, argument⟩ := records.argument c (turn.children c hc)
    rw [argument, Lowering.argument, known]
    rfl
  cases node with
  | leaf var =>
    cases slot : leafSlot var with
    | none =>
      simp only [meet, slot]
      trivial
    | some s =>
      have mentions : symbolsOf a leafSlot (.leaf var) = [.state s] := by simp [symbolsOf, slot]
      simp only [meet, slot]
      exact records.stand rfl rfl hn rfl (by simp [mentions]) (symbols.readSlot hn mentions)
  | slot index var order =>
    exact records.stand rfl rfl hn rfl (by simp [symbolsOf]) (symbols.readSlot hn rfl)
  | independent => exact records.stand rfl rfl hn rfl (by simp [symbolsOf]) (symbols.readTime hn rfl)
  | constant v =>
    exact records.stand rfl rfl hn rfl (by simp [symbolsOf]) (symbols.readConstant hn rfl)
  | derivative c k => trivial
  -- operations take their arguments from the places of their children
  | unary op c =>
    apply records.emit l rfl rfl hn rfl turn.fresh ?_ (symbols.skip hn rfl)
    simp [instructionOf, child c (by simp [Node.children])]
  | binary op operands =>
    cases operands with
    | valueTree v t =>
      apply records.emit (l.readConstant v (a.value v)) rfl rfl hn rfl turn.fresh ?_
        (symbols.readConstant hn rfl)
      simp [instructionOf, child t (by simp [Node.children, Operands.trees])]
    | treeValue t v =>
      apply records.emit (l.readConstant v (a.value v)) rfl rfl hn rfl turn.fresh ?_
        (symbols.readConstant hn rfl)
      simp [instructionOf, child t (by simp [Node.children, Operands.trees])]
    | treeTree x y =>
      apply records.emit l rfl rfl hn rfl turn.fresh ?_ (symbols.skip hn rfl)
      simp [instructionOf, child x (by simp [Node.children, Operands.trees]),
        child y (by simp [Node.children, Operands.trees])]

theorem records_start : Records a leafSlot [] {} :=
  ⟨by simp, rfl, by simp, List.Pairwise.nil, List.Pairwise.nil, fun x => by cases x <;> simp [Lists]⟩

end Lowering

/-! ## Flattening -/

/-- What is recorded is a program for the roots. -/
theorem Lowering.Records.flattens {roots : List Nat} (inside : ∀ r ∈ roots, r < a.count)
    {l : Lowering} (records : l.Records a leafSlot (a.postorder roots)) :
    Flattens a leafSlot roots ((a.postorder roots).filter a.isOperation)
      ⟨l.instructions, roots.map l.argument, l.slots, l.constants, l.usesTime⟩ := by
  have reached : ∀ g, g ∈ a.postorder roots ↔ ∃ r ∈ roots, a.Reaches r g := fun g =>
    Arena.mem_postorder inside
  refine ⟨(Arena.nodup_postorder inside).filter _, ?_, records.size, records.instruction, ?_,
    records.symbols.slots, records.symbols.constants, ?_⟩
  · intro h
    rw [List.mem_filter, reached, and_comm]
  · -- a root is among the nodes that have been met
    rw [List.forall₂_map_right_iff, List.forall₂_same]
    intro r hr
    obtain ⟨x, known, argument⟩ :=
      records.argument r ((reached r).mpr ⟨r, hr, Arena.Reaches.refl a r⟩)
    rw [argument, Lowering.argument, known]
    rfl
  · intro x
    have listed := records.symbols.lists x
    simp only [reached] at listed
    refine Iff.trans ?_ (listed.trans ?_)
    · cases x <;> rfl
    · constructor
      · rintro ⟨h, ⟨r, hr, reach⟩, node, hn, mentions⟩
        exact ⟨r, hr, h, node, reach, hn, mentions⟩
      · rintro ⟨r, hr, h, node, reach, hn, mentions⟩
        exact ⟨h, ⟨r, hr, reach⟩, node, hn, mentions⟩

/-- So is any program that trees have been flattened into. -/
theorem flattens_of_ofTrees {roots : List Nat} (inside : ∀ r ∈ roots, r < a.count) {p : Program}
    (flattened : ofTrees a roots leafSlot = .ok p) :
    ∃ operations, Flattens a leafSlot roots operations p := by
  obtain ⟨l, outcome, rfl⟩ := exists_sweep flattened
  have swept : Ended (a.sweepM roots {} (Lowering.meet a leafSlot))
      (Lowering.Records a leafSlot (a.postorder roots)) fun _ => True :=
    Arena.ended_sweep inside (Lowering.Records a leafSlot) Lowering.records_start
      fun _ _ _ _ turn records => Lowering.meet_records records turn
  exact ⟨_, (swept.of_ok outcome).flattens inside⟩

/-! ## Reading -/

section

variable {roots : List Nat} {p : Program}

theorem Flattens.exists_instruction (flat : Flattens a leafSlot roots operations p)
    (hn : a.node? h = some node) (operation : node.isOperation = true)
    (reached : ∃ r ∈ roots, a.Reaches r h) :
    ∃ i x, p.instructions[i]? = some x ∧
      instructionOf a leafSlot (operations.take i) node = some x := by
  have listed : h ∈ operations :=
    (flat.mem h).mpr ⟨by rwa [Arena.isOperation_eq hn], reached⟩
  obtain ⟨i, place⟩ := List.getElem?_of_mem listed
  obtain ⟨node', x, hn', emitted, known⟩ := flat.instruction i h place
  rw [hn] at hn'
  cases hn'
  exact ⟨i, x, emitted, known⟩

theorem Flattens.operation_of_instruction (flat : Flattens a leafSlot roots operations p) {i : Nat}
    {x : Instruction} (emitted : p.instructions[i]? = some x) :
    ∃ h node, (∃ r ∈ roots, a.Reaches r h) ∧ a.node? h = some node ∧
      instructionOf a leafSlot (operations.take i) node = some x := by
  have inside : i < operations.length := by
    rw [← flat.size]
    exact (Array.getElem?_eq_some_iff.mp emitted).1
  have place : operations[i]? = some operations[i] := List.getElem?_eq_getElem inside
  obtain ⟨node, y, hn, emitted', known⟩ := flat.instruction i _ place
  rw [emitted] at emitted'
  cases emitted'
  exact ⟨_, node, ((flat.mem _).mp (List.getElem_mem inside)).2, hn, known⟩

/-- What a node mentions is read.  An operation reads it itself, and a leaf is a
    root or a child of an operation. -/
theorem Flattens.reads_of_mentions (flat : Flattens a leafSlot roots operations p)
    (plain : ¬ a.HasDerivative roots) {r : Nat} (hr : r ∈ roots) (reach : a.Reaches r h)
    (hn : a.node? h = some node) {x : Argument} (mentions : x ∈ symbolsOf a leafSlot node) :
    p.Reads x := by
  by_cases operation : node.isOperation = true
  · obtain ⟨i, y, emitted, known⟩ := flat.exists_instruction hn operation ⟨r, hr, reach⟩
    exact Or.inl ⟨y, Array.mem_of_getElem? emitted, (mem_arguments_iff known).mpr (Or.inr mentions)⟩
  · have leaf : node.isOperation = false := by simpa using operation
    have argument : ∀ ops, argumentOf a leafSlot ops h = some x := fun ops => by
      rw [argumentOf_leaf hn leaf]
      exact mem_symbolsOf_iff_head?.mp mentions
    -- a leaf has a last parent on the way to it, or it is the root itself
    rcases Relation.ReflTransGen.cases_tail reach with root | ⟨g, above, hc⟩
    · subst root
      obtain ⟨y, hy, output⟩ := exists_mem_of_forall₂_left flat.outputs hr
      rw [argument] at output
      cases output
      exact Or.inr hy
    · have parent : ∃ other, a.node? g = some other := by
        cases gn : a.node? g with
        | none => simp [Arena.children, gn] at hc
        | some other => exact ⟨other, rfl⟩
      obtain ⟨other, gn⟩ := parent
      rw [Arena.children_eq gn] at hc
      have operation : other.isOperation = true := by
        cases other with
        | leaf | independent | constant | slot => cases hc
        | derivative c k => exact absurd ⟨r, hr, g, c, k, above, gn⟩ plain
        | unary | binary => rfl
      obtain ⟨i, y, emitted, known⟩ := flat.exists_instruction gn operation ⟨r, hr, above⟩
      exact Or.inl ⟨y, Array.mem_of_getElem? emitted,
        (mem_arguments_iff known).mpr (Or.inl ⟨h, hc, argument _⟩)⟩

/-- What is read besides registers is mentioned by a node. -/
theorem Flattens.mentions_of_reads (flat : Flattens a leafSlot roots operations p) {x : Argument}
    (symbol : ∀ i, x ≠ .register i) (reads : p.Reads x) :
    ∃ r ∈ roots, ∃ h node, a.Reaches r h ∧ a.node? h = some node ∧
      x ∈ symbolsOf a leafSlot node := by
  have mentioned : ∀ ops h, argumentOf a leafSlot ops h = some x →
      ∃ node, a.node? h = some node ∧ x ∈ symbolsOf a leafSlot node := by
    intro ops h argument
    rcases argumentOf_eq argument with ⟨i, -, rfl⟩ | known
    · exact absurd rfl (symbol i)
    · exact known
  rcases reads with ⟨y, hy, reads⟩ | output
  · obtain ⟨i, emitted⟩ := Array.getElem?_of_mem hy
    obtain ⟨h, node, ⟨r, hr, reach⟩, hn, known⟩ := flat.operation_of_instruction emitted
    rcases (mem_arguments_iff known).mp reads with ⟨c, hc, argument⟩ | mentions
    · obtain ⟨child, cn, mentions⟩ := mentioned _ c argument
      have below : a.Reaches h c := Arena.Reaches.child (by rwa [Arena.children_eq hn])
      exact ⟨r, hr, c, child, reach.trans below, cn, mentions⟩
    · exact ⟨r, hr, h, node, reach, hn, mentions⟩
  · obtain ⟨r, hr, argument⟩ := exists_mem_of_forall₂_right flat.outputs output
    obtain ⟨node, hn, mentions⟩ := mentioned _ r argument
    exact ⟨r, hr, r, node, Arena.Reaches.refl a r, hn, mentions⟩

/-! ## Registers -/

theorem Flattens.below (flat : Flattens a leafSlot roots operations p) {i j : Nat}
    {x : Instruction} (emitted : p.instructions[i]? = some x) (reads : .register j ∈ x.arguments) :
    j < i := by
  obtain ⟨h, node, -, -, known⟩ := flat.operation_of_instruction emitted
  rcases (mem_arguments_iff known).mp reads with ⟨c, -, argument⟩ | mentions
  · rcases argumentOf_eq argument with ⟨k, inside, same⟩ | ⟨child, -, mentions⟩
    · cases same
      exact inside.trans_le (List.length_take_le i operations)
    · exact absurd mentions register_not_mem_symbolsOf
  · exact absurd mentions register_not_mem_symbolsOf

/-- A later register does not change what an instruction computes. -/
theorem evaluate_push {α : Type u} (m : Meaning α) (regs : Array α) (y : α) {x : Instruction}
    (below : ∀ j, .register j ∈ x.arguments → j < regs.size) :
    evaluate m (regs.push y) x = evaluate m regs x := by
  have same : ∀ z ∈ x.arguments, read m (regs.push y) z = read m regs z := by
    intro z hz
    apply read_push
    cases z with
    | register j => exact below j hz
    | state | time | constant => trivial
  cases x with
  | unary op z => simp only [evaluate, same z (by simp [Instruction.arguments])]
  | binary op z w =>
    simp only [evaluate, same z (by simp [Instruction.arguments]),
      same w (by simp [Instruction.arguments])]

/-- If instructions read registers before their own, register `i` holds what
    instruction `i` computes from all registers. -/
theorem getElem?_registersOf {α : Type u} (m : Meaning α) (is : Array Instruction)
    (below : ∀ i (x : Instruction), is[i]? = some x → ∀ j, .register j ∈ x.arguments → j < i)
    {i : Nat} {x : Instruction} (there : is[i]? = some x) :
    (registersOf m is)[i]? = some (evaluate m (registersOf m is) x) := by
  obtain ⟨list⟩ := is
  induction list using List.reverseRecOn generalizing i x with
  | nil => simp at there
  | append_singleton list last ih =>
    have pushed : (⟨list ++ [last]⟩ : Array Instruction) = (⟨list⟩ : Array Instruction).push last := by
      simp
    rw [pushed] at below there ⊢
    have size := size_registersOf m ⟨list⟩
    have inside : i < ((⟨list⟩ : Array Instruction).push last).size :=
      (Array.getElem?_eq_some_iff.mp there).1
    rw [Array.size_push] at inside
    -- every instruction reads registers that the last one does not write
    have stable := evaluate_push m (registersOf m ⟨list⟩) (evaluate m (registersOf m ⟨list⟩) last)
      (fun j reads => (below i x there j reads).trans_le (by omega))
    rw [registersOf_push, stable]
    by_cases old : i < (⟨list⟩ : Array Instruction).size
    · have before : (⟨list⟩ : Array Instruction)[i]? = some x := by
        rwa [Array.getElem?_push_lt old, ← Array.getElem?_eq_getElem] at there
      rw [Array.getElem?_push_lt (by omega), ← Array.getElem?_eq_getElem]
      refine ih (fun k y hy => below k y ?_) before
      have bound : k < (⟨list⟩ : Array Instruction).size := (Array.getElem?_eq_some_iff.mp hy).1
      rwa [Array.getElem?_push_lt bound, ← Array.getElem?_eq_getElem]
    · have here : i = (⟨list⟩ : Array Instruction).size := by omega
      have same : last = x := by
        rw [here, Array.getElem?_push_size] at there
        exact Option.some.inj there
      rw [here, ← size, Array.getElem?_push_size, same]

/-! ## The main statement -/

theorem Flattens.wellFormed (flat : Flattens a leafSlot roots operations p)
    (plain : ¬ a.HasDerivative roots) : WellFormed.{u} p := by
  have below : ∀ i (x : Instruction), p.instructions[i]? = some x →
      ∀ j, .register j ∈ x.arguments → j < i := fun i x emitted j reads => flat.below emitted reads
  refine ⟨below, fun m i x emitted => getElem?_registersOf m p.instructions below emitted, ?_,
    flat.slots, flat.constants, ?_⟩
  · intro x output
    obtain ⟨r, hr, argument⟩ := exists_mem_of_forall₂_right flat.outputs output
    rcases argumentOf_eq argument with ⟨i, inside, same⟩ | ⟨node, hn, mentions⟩
    · exact Or.inl ⟨i, flat.size ▸ inside, same⟩
    · exact Or.inr ((flat.lists x).mpr ⟨r, hr, r, node, Arena.Reaches.refl a r, hn, mentions⟩)
  · intro x symbol
    rw [flat.lists]
    constructor
    · rintro ⟨r, hr, h, node, reach, hn, mentions⟩
      exact flat.reads_of_mentions plain hr reach hn mentions
    · exact flat.mentions_of_reads symbol

/-- Operations are nodes, and each is there once. -/
theorem Flattens.size_le (flat : Flattens a leafSlot roots operations p)
    (inside : ∀ r ∈ roots, r < a.count) : p.instructions.size ≤ a.count := by
  have bounded : operations ⊆ List.range a.count := by
    intro h listed
    obtain ⟨r, hr, reach⟩ := ((flat.mem h).mp listed).2
    exact List.mem_range.mpr (reach.lt_count (inside r hr))
  have fewer := (flat.nodup.subperm bounded).length_le
  rwa [List.length_range, ← flat.size] at fewer

end

/-- **Trees without derivatives become a well-formed program** with exactly one
    instruction for each operation below the roots, and so with no more of them
    than the arena has nodes.  A field that can be made of it reads no entry
    outside of its state. -/
theorem ofTrees_wellFormed {roots : List Nat} (inside : ∀ r ∈ roots, r < a.count)
    (covered : ∀ r ∈ roots, ∀ h var, a.Reaches r h → a.node? h = some (.leaf var) →
      (leafSlot var).isSome)
    (plain : ¬ a.HasDerivative roots) :
    ∃ p operations, ofTrees a roots leafSlot = .ok p ∧ Flattens a leafSlot roots operations p ∧
      WellFormed.{u} p ∧ p.instructions.size ≤ a.count ∧
      ∀ size f, VectorField.create p size = .ok f → (f.size : Int) = size ∧
        ∀ s, f.program.Reads (.state s) → 0 ≤ s ∧ s < f.size := by
  obtain ⟨p, flattened, -⟩ := (outputs_eq_denote.{0} inside covered).2 plain
  obtain ⟨operations, flat⟩ := flattens_of_ofTrees inside flattened
  have formed : WellFormed.{u} p := flat.wellFormed plain
  refine ⟨p, operations, flattened, flat, formed, flat.size_le inside, ?_⟩
  intro size f made
  obtain ⟨same, sizes⟩ := VectorField.of_create made
  refine ⟨sizes, fun s reads => f.slots_within s ?_⟩
  rw [same] at reads ⊢
  exact (formed.lists (.state s) (by simp)).mpr reads

theorem ofTrees_wellFormed_shared : ∃ p operations,
    ofTrees shared [2, 1, 2] = .ok p ∧ Flattens shared ownSlot [2, 1, 2] operations p ∧
      WellFormed.{0} p ∧ p.instructions.size = 2 ∧ p.slots = [0] ∧ p.usesTime = false := by
  obtain ⟨p, operations, flattened, flat, formed, -, -⟩ :=
    ofTrees_wellFormed.{0} shared_inside shared_covered shared_plain
  have listed : (ofTrees shared [2, 1, 2]).toOption.map
      (fun p => (p.instructions.size, p.slots, p.usesTime)) = some (2, [0], false) := by decide +kernel
  rw [flattened] at listed
  have known := Option.some.inj listed
  simp only [Prod.mk.injEq] at known
  exact ⟨p, operations, flattened, flat, formed, known⟩

end Program

end JetForm
