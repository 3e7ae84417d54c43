import JetForm.Program.Basic
import JetForm.Proofs.Tree.Shape
import Mathlib.Tactic.IntervalCases

/-! # Programs compute the trees they are made of

    While trees are flattened, each node that has been met has an argument, and
    reading that argument gives the value of the node's tree: `Lowered` is this
    invariant.  It survives because registers are written once, each after the
    ones before it, and because a node is met after its children.

    The main statement says both when flattening fails, namely at a derivative,
    and what the program computes otherwise.  Nothing is asked of the meaning of
    the operations, so operands cannot trade places. -/

namespace JetForm

universe u

/-- The same meaning where an unknown is read from a slot of the state. -/
def Meaning.readingSlots {α : Type u} (m : Meaning α) (leafSlot : Nat → Option Int) : Meaning α :=
  { m with leaf := fun var => m.state ((leafSlot var).getD 0) }

/-- A derivative occurs below one of the roots. -/
def Arena.HasDerivative (a : Arena) (roots : List Nat) : Prop :=
  ∃ r ∈ roots, ∃ h c k, a.Reaches r h ∧ a.node? h = some (.derivative c k)

namespace Program

/-! ## Registers -/

/-- The registers after some instructions. -/
def registersOf {α : Type u} (m : Meaning α) (instructions : Array Instruction) : Array α :=
  instructions.foldl (fun regs i => regs.push (evaluate m regs i)) #[]

theorem registersOf_push {α : Type u} (m : Meaning α) (is : Array Instruction) (i : Instruction) :
    registersOf m (is.push i) = (registersOf m is).push (evaluate m (registersOf m is) i) := by
  simp [registersOf]

theorem size_registersOf {α : Type u} (m : Meaning α) (is : Array Instruction) :
    (registersOf m is).size = is.size := by
  refine Array.foldl_induction (fun i (regs : Array α) => regs.size = i) rfl ?_
  intro i regs size
  rw [Array.size_push, size]

/-- The argument reads no register but the first `count`. -/
def Argument.Below (count : Nat) : Argument → Prop
  | .register i => i < count
  | _ => True

theorem read_push {α : Type u} (m : Meaning α) (regs : Array α) (y : α) {x : Argument}
    (below : Argument.Below regs.size x) : read m (regs.push y) x = read m regs x := by
  cases x with
  | register i => simp [read, Array.getElem?_push_lt below, Array.getElem?_eq_getElem below]
  | state | time | constant => rfl

/-! ## The invariant -/

section

variable {a : Arena} {leafSlot : Nat → Option Int}

/-- Argument `x` stands for node `h`: under every meaning it reads the value of
    the node. -/
structure Lowering.Stands (a : Arena) (leafSlot : Nat → Option Int) (l : Lowering) (h : Nat)
    (x : Argument) : Prop where
  known : l.arguments[h]? = some x
  below : Argument.Below l.instructions.size x
  value : ∀ {α : Type u} (m : Meaning α),
    read m (registersOf m l.instructions) x = a.denote (m.readingSlots leafSlot) h

/-- Node `h` cannot be flattened: it is a derivative, or an unknown without a
    slot. -/
def Lowering.Refused (a : Arena) (leafSlot : Nat → Option Int) (h : Nat) (e : Error) : Prop :=
  (∃ c k, a.node? h = some (.derivative c k) ∧ e = .derivativeLeft (a.info h).firstVar) ∨
    ∃ var, a.node? h = some (.leaf var) ∧ leafSlot var = none

/-- All nodes met so far have an argument, and none of them is a derivative. -/
structure Lowering.Lowered (a : Arena) (leafSlot : Nat → Option Int) (before : List Nat)
    (l : Lowering) : Prop where
  stands : ∀ h ∈ before, ∃ x, Lowering.Stands.{u} a leafSlot l h x
  noDerivative : ∀ h ∈ before, ∀ c k, a.node? h ≠ some (.derivative c k)

namespace Lowering

theorem Stands.argument {l : Lowering} {h : Nat} {x : Argument}
    (stands : Stands.{u} a leafSlot l h x) : l.argument h = x := by
  simp [Lowering.argument, stands.known]

/-- A child of the node that is met stands for its value. -/
theorem Lowered.child {l : Lowering} {before : List Nat} (low : Lowered.{u} a leafSlot before l)
    {c : Nat} (hc : c ∈ before) {α : Type u} (m : Meaning α) :
    read m (registersOf m l.instructions) (l.argument c) =
      a.denote (m.readingSlots leafSlot) c := by
  obtain ⟨x, stands⟩ := low.stands c hc
  rw [stands.argument]
  exact stands.value m

/-- What is read besides the registers does not matter to the invariant. -/
theorem Lowered.congr {l : Lowering} {before : List Nat}
    (low : Lowered.{u} a leafSlot before l) (l' : Lowering) (arguments : l'.arguments = l.arguments)
    (instructions : l'.instructions = l.instructions) : Lowered.{u} a leafSlot before l' := by
  refine ⟨fun h hh => ?_, low.noDerivative⟩
  obtain ⟨x, stands⟩ := low.stands h hh
  exact ⟨x, arguments ▸ stands.known, instructions ▸ stands.below, instructions ▸ stands.value⟩

/-- A node that is no derivative can be met next. -/
theorem Lowered.noDerivative_append {l : Lowering} {before : List Nat} {h : Nat} {node : Node}
    (low : Lowered.{u} a leafSlot before l) (hn : a.node? h = some node)
    (other : ∀ c k, node ≠ .derivative c k) :
    ∀ g ∈ before ++ [h], ∀ c k, a.node? g ≠ some (.derivative c k) := by
  intro g hg c k hd
  rcases List.mem_append.mp hg with hg | hg
  · exact low.noDerivative g hg c k hd
  · obtain rfl := List.mem_singleton.mp hg
    rw [hn] at hd
    exact other c k (Option.some.inj hd)

/-- A leaf: an argument stands for the node, and no instruction is needed. -/
theorem Lowered.stand {l : Lowering} {before : List Nat} {h : Nat} {node : Node} {x : Argument}
    (low : Lowered.{u} a leafSlot before l) (hn : a.node? h = some node)
    (leaf : ∀ c k, node ≠ .derivative c k) (below : ∀ count, Argument.Below count x)
    (value : ∀ {α : Type u} (m : Meaning α) (regs : Array α),
      read m regs x = (a.treeOf node).denote (m.readingSlots leafSlot)) :
    Lowered.{u} a leafSlot (before ++ [h]) (l.stand h x) := by
  have self : Stands.{u} a leafSlot (l.stand h x) h x := by
    refine ⟨by simp [Lowering.stand], below _, fun m => ?_⟩
    rw [value m, Arena.denote, Arena.tree_eq hn]
  constructor
  · intro g hg
    by_cases same : h = g
    · subst same
      exact ⟨x, self⟩
    · have hg : g ∈ before := by simpa [Ne.symm same] using hg
      obtain ⟨y, stands⟩ := low.stands g hg
      exact ⟨y, by simpa [Lowering.stand, same, Std.HashMap.getElem?_insert] using stands.known,
        stands.below, stands.value⟩
  · exact low.noDerivative_append hn leaf

/-- An operation: a new register stands for the node. -/
theorem Lowered.emit {l : Lowering} {before : List Nat} {h : Nat} {node : Node} {i : Instruction}
    (low : Lowered.{u} a leafSlot before l) (hn : a.node? h = some node)
    (operation : ∀ c k, node ≠ .derivative c k)
    (value : ∀ {α : Type u} (m : Meaning α), evaluate m (registersOf m l.instructions) i =
      (a.treeOf node).denote (m.readingSlots leafSlot)) :
    Lowered.{u} a leafSlot (before ++ [h]) (l.emit h i) := by
  -- the node itself is in the register that comes next
  have self : Stands.{u} a leafSlot (l.emit h i) h (.register l.instructions.size) := by
    refine ⟨by simp [Lowering.emit, Lowering.stand], ?_, fun m => ?_⟩
    · simp [Lowering.emit, Lowering.stand, Argument.Below]
    · rw [Arena.denote, Arena.tree_eq hn, ← value m]
      simp [Lowering.emit, registersOf_push, read, ← size_registersOf m l.instructions]
  constructor
  · intro g hg
    by_cases same : h = g
    · subst same
      exact ⟨_, self⟩
    -- registers before it keep their values
    · have hg : g ∈ before := by simpa [Ne.symm same] using hg
      obtain ⟨y, stands⟩ := low.stands g hg
      refine ⟨y, ?_, ?_, fun m => ?_⟩
      · simpa [Lowering.emit, Lowering.stand, same, Std.HashMap.getElem?_insert] using stands.known
      · have below := stands.below
        cases y with
        | register j =>
          simp only [Argument.Below, Lowering.emit, Array.size_push] at below ⊢
          omega
        | state | time | constant => trivial
      · show read m (registersOf m (l.instructions.push i)) y = _
        rw [registersOf_push, read_push m _ _ (by rw [size_registersOf]; exact stands.below)]
        exact stands.value m
  · exact low.noDerivative_append hn operation

/-- Meeting a node keeps the invariant, or the node cannot be flattened. -/
theorem meet_lowered {l : Lowering} {roots before : List Nat} {h : Nat} {node : Node}
    (low : Lowered.{u} a leafSlot before l) (turn : a.Turn roots before h node) :
    Ended (meet a leafSlot l h node) (Lowered.{u} a leafSlot (before ++ [h]))
      (Refused a leafSlot h) := by
  have hn := turn.stored
  have child : ∀ c ∈ node.children, ∀ {α : Type u} (m : Meaning α),
      read m (registersOf m l.instructions) (l.argument c) =
        a.denote (m.readingSlots leafSlot) c :=
    fun c hc => low.child (turn.children c hc)
  cases node with
  -- nodes that are read stand for a symbol, and operations get a register
  | leaf var =>
    cases slot : leafSlot var with
    | none =>
      simp only [meet, slot]
      exact Or.inr ⟨var, hn, slot⟩
    | some s =>
      simp only [meet, slot]
      refine (low.congr (l.readSlot s) rfl rfl).stand hn (by simp) (fun _ => trivial) ?_
      intro α m regs
      simp [read, Arena.treeOf, Tree.denote, Meaning.readingSlots, slot]
  | slot index var order =>
    refine (low.congr (l.readSlot index) rfl rfl).stand hn (by simp) (fun _ => trivial) ?_
    intro α m regs
    rfl
  | independent =>
    refine (low.congr { l with usesTime := true } rfl rfl).stand hn (by simp)
      (fun _ => trivial) ?_
    intro α m regs
    rfl
  | constant v =>
    refine (low.congr (l.readConstant v (a.value v)) rfl rfl).stand hn (by simp)
      (fun _ => trivial) ?_
    intro α m regs
    rfl
  | unary op c =>
    refine low.emit hn (by simp) fun m => ?_
    simp only [evaluate, Arena.treeOf, Tree.denote, child c (by simp [Node.children]) m,
      Arena.denote, Meaning.readingSlots]
  | derivative c k => exact Or.inl ⟨c, k, hn, rfl⟩
  | binary op operands =>
    cases operands with
    | valueTree v t =>
      refine (low.congr (l.readConstant v (a.value v)) rfl rfl).emit hn (by simp)
        fun m => ?_
      have value := child t (by simp [Node.children, Operands.trees]) m
      simp only [evaluate, Arena.treeOf, Tree.denote]
      exact congrArg (m.binary op (m.value (a.value v))) value
    | treeValue t v =>
      refine (low.congr (l.readConstant v (a.value v)) rfl rfl).emit hn (by simp)
        fun m => ?_
      have value := child t (by simp [Node.children, Operands.trees]) m
      simp only [evaluate, Arena.treeOf, Tree.denote]
      exact congrArg (fun x => m.binary op x (m.value (a.value v))) value
    | treeTree x y =>
      refine low.emit hn (by simp) fun m => ?_
      simp only [evaluate, Arena.treeOf, Tree.denote, Arena.denote, Meaning.readingSlots,
        child x (by simp [Node.children, Operands.trees]) m,
        child y (by simp [Node.children, Operands.trees]) m]

theorem lowered_start : Lowered.{u} a leafSlot [] {} :=
  ⟨by simp, by simp⟩

/-- All roots are flattened, or some node below them cannot be. -/
theorem sweep_lowered {roots : List Nat} (inside : ∀ r ∈ roots, r < a.count) :
    Ended (a.sweepM roots {} (meet a leafSlot)) (Lowered.{u} a leafSlot (a.postorder roots))
      fun e => ∃ r ∈ roots, ∃ h, a.Reaches r h ∧ Refused a leafSlot h e := by
  refine Arena.ended_sweep inside (Lowered.{u} a leafSlot) lowered_start ?_
  intro before h node l turn low
  refine (meet_lowered low turn).mono (fun _ => id) fun e refused => ?_
  obtain ⟨r, hr, reach⟩ := turn.reached
  exact ⟨r, hr, h, reach, refused⟩

end Lowering

/-! ## Programs -/

/-- A constant needs no instruction. -/
theorem ofTrees_constant {h v : Nat} (hn : a.node? h = some (.constant v)) :
    ofTrees a [h] = .ok ⟨#[], [.constant v (a.value v)], [], [(v, a.value v)], false⟩ := by
  have stored : a.requireNodes [h] = .ok () := by
    simpa [Arena.requireNodes_eq_ok] using Arena.lt_count hn
  unfold ofTrees
  rw [stored]
  simp only [Arena.sweepM, Arena.postorder_of_childless hn rfl, List.foldlM_cons, List.foldlM_nil,
    hn, Lowering.meet]
  simp [bind, Except.bind, pure, Except.pure, Lowering.argument, Lowering.stand,
    Lowering.readConstant, insertConstant]

/-- A program that trees are flattened into is what their sweep ends with. -/
theorem exists_sweep {roots : List Nat} {p : Program}
    (flattened : ofTrees a roots leafSlot = .ok p) :
    ∃ l, a.sweepM roots {} (Lowering.meet a leafSlot) = .ok l ∧
      p = ⟨l.instructions, roots.map l.argument, l.slots, l.constants, l.usesTime⟩ := by
  obtain ⟨_, -, rest⟩ := exists_ok_of_bind flattened
  obtain ⟨l, outcome, made⟩ := exists_ok_of_bind rest
  cases made
  exact ⟨l, outcome, rfl⟩

/-- The outputs of a program are the values of the trees it is made of. -/
theorem run_ofTrees {roots : List Nat} (inside : ∀ r ∈ roots, r < a.count) {p : Program}
    (flattened : ofTrees a roots leafSlot = .ok p) {α : Type u} (m : Meaning α) :
    p.run m = roots.map (a.denote (m.readingSlots leafSlot)) := by
  obtain ⟨l, outcome, rfl⟩ := exists_sweep flattened
  have low := (Lowering.sweep_lowered.{u} inside).of_ok outcome
  show (roots.map l.argument).map _ = _
  rw [List.map_map]
  refine List.map_congr_left fun r hr => ?_
  exact low.child ((Arena.mem_postorder inside).mpr ⟨r, hr, Arena.Reaches.refl a r⟩) m

/-- Flattening stops at the derivatives that occur in the trees, and only there.
    Without derivatives the outputs of the program are the values of the roots,
    whatever the operations mean. -/
theorem outputs_eq_denote {roots : List Nat} (inside : ∀ r ∈ roots, r < a.count)
    (covered : ∀ r ∈ roots, ∀ h var, a.Reaches r h → a.node? h = some (.leaf var) →
      (leafSlot var).isSome) :
    (a.HasDerivative roots ↔ ∃ var, ofTrees a roots leafSlot = .error (.derivativeLeft var)) ∧
      (¬ a.HasDerivative roots → ∃ p, ofTrees a roots leafSlot = .ok p ∧
        ∀ {α : Type u} (m : Meaning α),
          p.run m = roots.map (a.denote (m.readingSlots leafSlot))) := by
  have handles : a.requireNodes roots = .ok () := Arena.requireNodes_eq_ok.mpr inside
  have swept : Ended (a.sweepM roots {} (Lowering.meet a leafSlot))
      (Lowering.Lowered.{u} a leafSlot (a.postorder roots))
      fun e => ∃ r ∈ roots, ∃ h, a.Reaches r h ∧ Lowering.Refused a leafSlot h e :=
    Lowering.sweep_lowered inside
  cases outcome : a.sweepM roots {} (Lowering.meet a leafSlot) with
  | ok l =>
    have low := swept.of_ok outcome
    have result : ofTrees a roots leafSlot =
        .ok ⟨l.instructions, roots.map l.argument, l.slots, l.constants, l.usesTime⟩ := by
      simp only [ofTrees, handles, outcome]
      rfl
    have none : ¬ a.HasDerivative roots := by
      rintro ⟨r, hr, h, c, k, reach, hn⟩
      exact low.noDerivative h ((Arena.mem_postorder inside).mpr ⟨r, hr, reach⟩) c k hn
    refine ⟨⟨fun has => absurd has none, ?_⟩, fun _ => ⟨_, result, ?_⟩⟩
    · rintro ⟨var, eq⟩
      rw [result] at eq
      cases eq
    intro α m
    simp only [run, registers, List.map_map]
    refine List.map_congr_left fun r hr => ?_
    exact low.child ((Arena.mem_postorder inside).mpr ⟨r, hr, Arena.Reaches.refl a r⟩) m
  | error e =>
    have result : ofTrees a roots leafSlot = .error e := by
      simp only [ofTrees, handles, outcome]
      rfl
    -- each leaf has a slot, so a derivative has been refused
    obtain ⟨r, hr, h, reach, ⟨c, k, hn, rfl⟩ | ⟨var, hn, missing⟩⟩ := swept.of_error outcome
    · have has : a.HasDerivative roots := ⟨r, hr, h, c, k, reach, hn⟩
      exact ⟨⟨fun _ => ⟨_, result⟩, fun _ => has⟩, fun none => absurd has none⟩
    · have slot := covered r hr h var reach hn
      simp [missing] at slot

/-- Arena of `u / (2 - u)`, where both operands read the same unknown. -/
def shared : Arena where
  size := 1
  serial := 0
  nodes := #[.leaf 0, .binary .minus (.valueTree 0 0), .binary .rdivide (.treeTree 0 1)]
  infos := #[⟨[0], 0, 1, none⟩, ⟨[0], 1, 1, none⟩, ⟨[0], 2, 1, none⟩]
  index := ∅
  values := #[.number (.int 2)]
  valueIndex := ∅
  child_lt := by
    intro h node hn c hc
    have inside : h < 3 := (Array.getElem?_eq_some_iff.mp hn).1
    interval_cases h <;> cases hn <;> simp [Node.children, Operands.trees] at hc <;> omega

theorem shared_inside : ∀ r ∈ [2, 1, 2], r < shared.count := by decide

theorem shared_covered : ∀ r ∈ [2, 1, 2], ∀ h var, shared.Reaches r h →
    shared.node? h = some (.leaf var) → (ownSlot var).isSome := fun _ _ _ _ _ _ => rfl

theorem shared_plain : ¬ shared.HasDerivative [2, 1, 2] := by
  rintro ⟨r, hr, h, c, k, reach, hn⟩
  have low : h < 3 := Arena.lt_count hn
  interval_cases h <;> cases hn

theorem shared_outputs : ∃ p, ofTrees shared [2, 1, 2] = .ok p ∧ ∀ m : Meaning Int,
    p.run m = [2, 1, 2].map (shared.denote (m.readingSlots ownSlot)) := by
  obtain ⟨p, result, outputs⟩ := (outputs_eq_denote shared_inside shared_covered).2 shared_plain
  exact ⟨p, result, fun m => outputs m⟩

end

end Program

end JetForm
