import JetForm.Program.Field
import JetForm.Program.Scalar
import JetForm.Proofs.Program.Lowering
import JetForm.Proofs.Tree.Lowered

/-! # What a program reads

    A program lists the slots of the state that it reads.  `Program.Within` says
    that the list is complete, and that its slots are among the first ones.
    This holds of every program that lowered trees are flattened into, and such
    trees are never refused.

    Within a state of size zero a program reads none.  `Program.Stateless`
    programs compute the same whatever the state is, even if there is none. -/

namespace JetForm

/-- Does the error tell that a tree cannot be made a program after all, or that
    a derivative has no entry in the state? -/
def Error.isLate : Error → Bool
  | .derivativeLeft _ | .missingLeaf _ | .missingSlot .. => true
  | .outputCount .. | .slotsOutside .. | .singleOutput _ => true
  | _ => false

namespace Program

/-- All slots that are read are listed, and they belong to a state of the given
    size. -/
structure Within (p : Program) (size : Nat) : Prop where
  slots : ∀ s ∈ p.slots, 0 ≤ s ∧ s < size
  instructions : ∀ i ∈ p.instructions, ∀ s, Argument.state s ∈ i.arguments → s ∈ p.slots
  outputs : ∀ s, Argument.state s ∈ p.outputs → s ∈ p.slots

/-! ## Flattening lowered trees -/

theorem mem_insertSlot {s t : Int} {slots : List Int} :
    s ∈ insertSlot t slots ↔ s = t ∨ s ∈ slots := by
  induction slots with
  | nil => simp [insertSlot]
  | cons x slots ih =>
    rw [insertSlot]
    split
    · simp
    · split
      next same => simp [same]
      next => simp [ih, or_left_comm]

namespace Lowering

/-- The same while trees are being flattened; it holds of the arguments of nodes
    instead of the outputs. -/
structure Within (l : Lowering) (size : Nat) : Prop where
  slots : ∀ s ∈ l.slots, 0 ≤ s ∧ s < size
  arguments : ∀ (h : Nat) s, l.arguments[h]? = some (Argument.state s) → s ∈ l.slots
  instructions : ∀ i ∈ l.instructions, ∀ s, Argument.state s ∈ i.arguments → s ∈ l.slots

variable {l : Lowering} {size : Nat}

theorem within_start : Within {} size :=
  ⟨by simp, by simp, by simp⟩

/-- The argument of a node that was never met is the time. -/
theorem Within.argument (within : l.Within size) {h : Nat} {s : Int}
    (reads : l.argument h = .state s) : s ∈ l.slots := by
  rw [Lowering.argument] at reads
  cases known : l.arguments[h]? with
  | none =>
    rw [known] at reads
    cases reads
  | some x =>
    rw [known] at reads
    exact within.arguments h s (known.trans (congrArg some reads))

theorem Within.readSlot (within : l.Within size) {s : Int} (inside : 0 ≤ s ∧ s < size) :
    (l.readSlot s).Within size := by
  have more : ∀ t, t ∈ l.slots → t ∈ (l.readSlot s).slots := fun t ht =>
    mem_insertSlot.mpr (Or.inr ht)
  refine ⟨?_, ?_, ?_⟩
  · intro t ht
    rcases mem_insertSlot.mp ht with rfl | ht
    · exact inside
    · exact within.slots t ht
  · exact fun h t known => more t (within.arguments h t known)
  · exact fun i hi t reads => more t (within.instructions i hi t reads)

/-- Constants are no part of the state. -/
theorem Within.readConstant (within : l.Within size) (h : Nat) (v : Value) :
    (l.readConstant h v).Within size :=
  ⟨within.slots, within.arguments, within.instructions⟩

theorem Within.stand (within : l.Within size) (h : Nat) {x : Argument}
    (listed : ∀ s, x = .state s → s ∈ l.slots) : (l.stand h x).Within size := by
  refine ⟨within.slots, ?_, within.instructions⟩
  intro g s known
  rw [Lowering.stand, Std.HashMap.getElem?_insert] at known
  split at known
  next => exact listed s (Option.some.inj known)
  next => exact within.arguments g s known

theorem Within.emit (within : l.Within size) (h : Nat) {i : Instruction}
    (listed : ∀ s, Argument.state s ∈ i.arguments → s ∈ l.slots) : (l.emit h i).Within size := by
  have stands : (l.stand h (.register l.instructions.size)).Within size :=
    within.stand h fun s eq => by cases eq
  refine ⟨stands.slots, stands.arguments, ?_⟩
  intro j hj
  rcases Array.mem_push.mp hj with hj | rfl
  · exact within.instructions j hj
  · exact listed

/-- Meeting a node of a lowered tree.  Only unknowns and derivatives could be
    refused. -/
theorem meet_within {a : Arena} {h : Nat} {node : Node} (hn : a.node? h = some node)
    (lowered : (a.expression h).lowered size = true) (within : l.Within size)
    (leafSlot : Nat → Option Int) :
    Ended (meet a leafSlot l h node) (Within · size) fun _ => False := by
  rw [Arena.expression_eq hn] at lowered
  -- what an instruction reads has been read for one of the children before
  have argument : ∀ (c : Nat) (s : Int), Argument.state s = l.argument c → s ∈ l.slots :=
    fun c s reads => within.argument reads.symm
  cases node with
  | leaf | derivative => cases lowered
  | independent =>
    have timed : Within { l with usesTime := true } size :=
      ⟨within.slots, within.arguments, within.instructions⟩
    exact timed.stand h fun s eq => by cases eq
  | constant v => exact (within.readConstant v (a.value v)).stand h fun s eq => by cases eq
  | slot index var order =>
    have inside : 0 ≤ index ∧ index < size := by
      simpa [Tree.lowered, Arena.expressionOf] using lowered
    apply (within.readSlot inside).stand h
    intro s eq
    cases eq
    exact mem_insertSlot.mpr (Or.inl rfl)
  | unary op c =>
    apply within.emit h
    intro s reads
    exact argument c s (List.mem_singleton.mp reads)
  | binary op operands =>
    cases operands with
    | valueTree v t =>
      apply (within.readConstant v (a.value v)).emit h
      intro s reads
      have reads : Argument.state s = l.argument t := by
        simpa [Instruction.arguments, Lowering.argument, Lowering.readConstant] using reads
      exact argument t s reads
    | treeValue t v =>
      apply (within.readConstant v (a.value v)).emit h
      intro s reads
      have reads : Argument.state s = l.argument t := by
        simpa [Instruction.arguments, Lowering.argument, Lowering.readConstant] using reads
      exact argument t s reads
    | treeTree x y =>
      apply within.emit h
      intro s reads
      rcases List.mem_cons.mp reads with reads | reads
      · exact argument x s reads
      · exact argument y s (List.mem_singleton.mp reads)

end Lowering

/-- Lowered trees are flattened into a program with an output for each of them,
    which reads nothing outside the state. -/
theorem ofTrees_lowered {a : Arena} {roots : List Nat} {size : Nat}
    (inside : ∀ r ∈ roots, r < a.count)
    (lowered : ∀ r ∈ roots, (a.expression r).lowered size = true) :
    ∃ p, ofTrees a roots = .ok p ∧ p.outputs.length = roots.length ∧ p.Within size := by
  have handles : a.requireNodes roots = .ok () := Arena.requireNodes_eq_ok.mpr inside
  have swept : Ended (a.sweepM roots {} (Lowering.meet a ownSlot)) (Lowering.Within · size)
      fun _ => False := by
    apply Arena.ended_sweep inside (fun _ (l : Lowering) => l.Within size) Lowering.within_start
    intro before h node l turn within
    obtain ⟨r, hr, reach⟩ := turn.reached
    -- a part of a lowered tree is lowered
    have low : (a.expression h).lowered size = true := by
      by_contra raised
      have above := Arena.expression_of_reaches (P := fun t => t.lowered size = false)
        Tree.lowered_of_child reach (by simpa using raised)
      rw [lowered r hr] at above
      cases above
    exact Lowering.meet_within turn.stored low within ownSlot
  cases outcome : a.sweepM roots {} (Lowering.meet a ownSlot) with
  | error e => exact (swept.of_error outcome).elim
  | ok l =>
    have within := swept.of_ok outcome
    refine ⟨⟨l.instructions, roots.map l.argument, l.slots, l.constants, l.usesTime⟩, ?_, ?_, ?_⟩
    · simp only [ofTrees, handles, outcome]
      rfl
    · exact List.length_map l.argument
    · refine ⟨within.slots, within.instructions, ?_⟩
      intro s reads
      obtain ⟨r, -, eq⟩ := List.mem_map.mp reads
      exact within.argument eq

/-! ## Programs without a state -/

/-- The program reads no slot. -/
structure Stateless (p : Program) : Prop where
  slots : p.slots = []
  instructions : ∀ i ∈ p.instructions, ∀ s, Argument.state s ∉ i.arguments
  outputs : ∀ s, Argument.state s ∉ p.outputs

theorem Within.stateless {p : Program} (within : p.Within 0) : p.Stateless := by
  have none : p.slots = [] := by
    apply List.eq_nil_iff_forall_not_mem.mpr
    intro s hs
    have := within.slots s hs
    omega
  refine ⟨none, ?_, ?_⟩
  · intro i hi s reads
    have listed := within.instructions i hi s reads
    rw [none] at listed
    cases listed
  · intro s reads
    have listed := within.outputs s reads
    rw [none] at listed
    cases listed

section

variable {α : Type u} {p : Program} (m : Meaning α) (state : Int → α)

theorem read_stateless (regs : Array α) {x : Argument} (other : ∀ s, x ≠ .state s) :
    read { m with state := state } regs x = read m regs x := by
  cases x with
  | state s => exact absurd rfl (other s)
  | register | time | constant => rfl

theorem evaluate_stateless (regs : Array α) {i : Instruction}
    (other : ∀ s, Argument.state s ∉ i.arguments) :
    evaluate { m with state := state } regs i = evaluate m regs i := by
  have same : ∀ x ∈ i.arguments, read { m with state := state } regs x = read m regs x := by
    intro x hx
    apply read_stateless
    rintro s rfl
    exact other s hx
  cases i with
  | unary op x => simp only [evaluate, same x (by simp [Instruction.arguments])]
  | binary op x y =>
    simp only [evaluate, same x (by simp [Instruction.arguments]),
      same y (by simp [Instruction.arguments])]

theorem registers_stateless (stateless : p.Stateless) :
    p.registers { m with state := state } = p.registers m := by
  rw [registers, registers, ← Array.foldl_toList, ← Array.foldl_toList]
  apply List.foldl_ext
  intro regs i hi
  rw [evaluate_stateless m state regs (stateless.instructions i (Array.mem_toList_iff.mp hi))]

/-- A program without a state gives the same results in every state. -/
theorem run_stateless (stateless : p.Stateless) :
    p.run { m with state := state } = p.run m := by
  simp only [run, registers_stateless m state stateless]
  apply List.map_congr_left
  intro x hx
  apply read_stateless
  rintro s rfl
  exact stateless.outputs s hx

end

theorem entries_stateless {ρ : Type} {p : Program} (stateless : p.Stateless) (E : Entries ρ)
    (t : ρ) (state state' : Int → Cell ρ) :
    p.entries E (Cell.meaning E t state) = p.entries E (Cell.meaning E t state') := by
  have run : p.run (Cell.meaning E t state) = p.run (Cell.meaning E t state') :=
    run_stateless (Cell.meaning E t state') state stateless
  have registers : p.registers (Cell.meaning E t state) = p.registers (Cell.meaning E t state') :=
    registers_stateless (Cell.meaning E t state') state stateless
  simp only [entries, fault?, run, registers]
  rfl

end Program

/-- Lowered trees are the components of a field, if there are as many as state
    entries. -/
theorem VectorField.exists_of_lowered {a : Arena} {roots : List Nat} {size : Nat}
    (length : roots.length = size) (inside : ∀ r ∈ roots, r < a.count)
    (lowered : ∀ r ∈ roots, (a.expression r).lowered size = true) :
    ∃ f, (do VectorField.create (← Program.ofTrees a roots) size) = Except.ok f ∧
      f.size = size := by
  obtain ⟨p, flattened, outputs, within⟩ := Program.ofTrees_lowered inside lowered
  have same : p.outputs.length = size := outputs.trans length
  subst same
  rw [flattened]
  show ∃ f, VectorField.create p p.outputs.length = .ok f ∧ f.size = p.outputs.length
  rw [VectorField.create, if_pos rfl, dif_pos within.slots]
  exact ⟨_, rfl, rfl⟩

/-- A field consists of the program that it is created from. -/
theorem VectorField.of_create {p : Program} {size : Int} {f : VectorField}
    (made : VectorField.create p size = .ok f) : f.program = p ∧ (f.size : Int) = size := by
  unfold VectorField.create at made
  split at made
  next same =>
    split at made
    next =>
      cases made
      exact ⟨rfl, same⟩
    next => cases made
  next => cases made

/-- A field that is made from trees has a component for each of them. -/
theorem VectorField.size_of_trees {a : Arena} {roots : List Nat} {size : Nat} {f : VectorField}
    (made : (do VectorField.create (← Program.ofTrees a roots) size) = Except.ok f) :
    f.size = size := by
  obtain ⟨p, -, created⟩ := exists_ok_of_bind made
  exact Int.ofNat.inj (VectorField.of_create created).2

/-- A field has the values of its components, however it is evaluated. -/
theorem VectorField.toList_eval {a : Arena} {roots : List Nat} (inside : ∀ r ∈ roots, r < a.count)
    {size : Int} {f : VectorField}
    (made : (do VectorField.create (← Program.ofTrees a roots) size) = Except.ok f) {K : Type}
    (E : Evaluation K) (t : K) (x : Vector K f.size) :
    (f.eval E t x).toList = roots.map fun r => E.result (a.denote
      ((E.meaning t fun s => x.toList[s.toNat]?.getD t).readingSlots Program.ownSlot) r) := by
  obtain ⟨p, flattened, created⟩ := exists_ok_of_bind made
  rw [VectorField.eval, Vector.toList_mk, (VectorField.of_create created).1,
    Program.run_ofTrees inside flattened, List.map_map]
  simp

/-- A function that reads no state needs none. -/
theorem ScalarFunction.entries_stateless {f : ScalarFunction} (stateless : f.program.Stateless)
    (t : Tensor Float) (x : Tensor Float) : f.entries t none = f.entries t (some x) := by
  simp only [entries]
  rw [Program.entries_stateless stateless]

end JetForm
