import JetForm.Proofs.Program.Reading
import JetForm.Reduction.Coefficient

/-! # Evaluation with doubles depends on the tree alone

    How a tree is flattened depends on what its arena shares, and how a program
    is run on its registers.  Neither matters to the outcome: a fault goes from
    every operation to the one above it, so a program is stopped exactly if its
    tree is a fault.  The origins of numbers do not matter either, since they
    tell constants apart and are not computed with. -/

namespace JetForm

/-! ## Numbers without origins -/

/-- The number without its origin. -/
def Number.bare : Number → Number
  | .double x _ => .double x .plain
  | .wide x _ => .wide x .plain
  | n => n

namespace Number

theorem combine_bare (op : BinaryOp) (a b : Number) :
    combine op a.bare b.bare = combine op a b := by
  cases a <;> cases b <;> rfl

@[simp] theorem toEntry_bare (n : Number) : n.bare.toEntry = n.toEntry := by
  cases n <;> rfl

@[simp] theorem toDouble_bare (n : Number) : n.bare.toDouble = n.toDouble := by
  cases n <;> rfl

@[simp] theorem reciprocal_bare (n : Number) : n.bare.reciprocal = n.reciprocal := by
  cases n <;> rfl

@[simp] theorem rightOf_bare (op : BinaryOp) (n : Number) : n.bare.rightOf op = n.rightOf op := by
  cases n with
  | wide x origin => cases x <;> rfl
  | bool | int | double | complex => rfl

end Number

@[simp] theorem UnaryOp.onNumber_bare (op : UnaryOp) (n : Number) :
    op.onNumber n.bare = op.onNumber n := by
  unfold UnaryOp.onNumber Kernel.onNumber
  simp only [Number.toEntry_bare, Number.reciprocal_bare]

/-- The value without the origins of its number. -/
def Value.bare : Value → Value
  | .number n => .number n.bare
  | .external f => .external f

/-- The tree without the origins of its numbers. -/
def Tree.bare : Tree → Tree
  | .constant v => .constant v.bare
  | .unary op c => .unary op c.bare
  | .valueTree op v t => .valueTree op v.bare t.bare
  | .treeValue op t v => .treeValue op t.bare v.bare
  | .treeTree op l r => .treeTree op l.bare r.bare
  | .derivative c k => .derivative c.bare k
  | t => t

namespace Cell

variable {ρ : Type} (E : Entries ρ)

/-- The content without the origin of a number. -/
def bare : Cell ρ → Cell ρ
  | .plain n => .plain n.bare
  | c => c

theorem toEntry_bare (c : Cell ρ) : c.bare.toEntry E = c.toEntry E := by
  cases c with
  | plain n => exact congrArg (E.ofEntry <$> ·) n.toEntry_bare
  | entry | fault => rfl

theorem unary_bare (op : UnaryOp) (c : Cell ρ) : unary E op c.bare = unary E op c := by
  cases c with
  | plain n =>
    show ofExcept (E.ofEntry <$> op.onNumber n.bare) = _
    rw [UnaryOp.onNumber_bare]
    rfl
  | entry | fault => rfl

theorem binary_bare (op : BinaryOp) (c d : Cell ρ) :
    binary E op c.bare d.bare = binary E op c d := by
  cases c with
  | fault f => rfl
  | plain n =>
    cases d with
    | plain m => exact congrArg ofNumber (Number.combine_bare op n m)
    | entry x => exact congrArg (zip E op · _) (toEntry_bare E (.plain n))
    | fault f => rfl
  | entry x =>
    cases d with
    | plain m =>
      show ofExcept (do E.map (← m.bare.rightOf op) x) = _
      rw [Number.rightOf_bare]
      rfl
    | entry | fault => rfl

theorem bare_bare (c : Cell ρ) : c.bare.bare = c.bare := by
  cases c with
  | plain n => cases n <;> rfl
  | entry | fault => rfl

theorem ofValue_bare (time : ρ) (v : Value) :
    (ofValue E time v.bare).bare = (ofValue E time v).bare := by
  cases v with
  | number n => exact bare_bare (.plain n)
  | external f => rfl

end Cell

section

variable {ρ : Type} (E : Entries ρ) (time : ρ) (state : Int → Cell ρ) (leafSlot : Nat → Option Int)

/-- What trees mean when a program is run on cells. -/
abbrev Cell.reading : Meaning (Cell ρ) :=
  (Cell.meaning E time state).readingSlots leafSlot

/-- The origins of the numbers in a tree do not matter to its value. -/
theorem Tree.bare_denote {s t : Tree} (same : s.bare = t.bare) :
    (s.denote (Cell.reading E time state leafSlot)).bare =
      (t.denote (Cell.reading E time state leafSlot)).bare := by
  have each : ∀ t : Tree, (t.bare.denote (Cell.reading E time state leafSlot)).bare =
      (t.denote (Cell.reading E time state leafSlot)).bare := by
    intro t
    induction t with
    | leaf | independent | slot | derivative => rfl
    | constant v => exact Cell.ofValue_bare E time v
    | unary op c ih =>
      show (Cell.unary E op _).bare = (Cell.unary E op _).bare
      rw [← Cell.unary_bare, ih, Cell.unary_bare]
    | valueTree op v c ih =>
      show (Cell.binary E op (Cell.ofValue E time v.bare) _).bare =
        (Cell.binary E op (Cell.ofValue E time v) _).bare
      rw [← Cell.binary_bare, ih, Cell.ofValue_bare, Cell.binary_bare]
    | treeValue op c v ih =>
      show (Cell.binary E op _ (Cell.ofValue E time v.bare)).bare =
        (Cell.binary E op _ (Cell.ofValue E time v)).bare
      rw [← Cell.binary_bare, ih, Cell.ofValue_bare, Cell.binary_bare]
    | treeTree op l r ihl ihr =>
      show (Cell.binary E op _ _).bare = (Cell.binary E op _ _).bare
      rw [← Cell.binary_bare, ihl, ihr, Cell.binary_bare]
  rw [← each s, same, each t]

/-! ## Faults -/

variable {E time state leafSlot} {a : Arena}

/-- A fault goes from an operand to the operation. -/
theorem Arena.fault_of_child {h c : Nat} (hc : c ∈ a.children h)
    (fault : ((a.denote (Cell.reading E time state leafSlot) c).fault?).isSome = true) :
    ((a.denote (Cell.reading E time state leafSlot) h).fault?).isSome = true := by
  have left : ∀ op (x y : Cell ρ), x.fault?.isSome = true →
      (Cell.binary E op x y).fault?.isSome = true := by
    intro op x y fault
    cases x with
    | fault f => rfl
    | plain | entry => cases fault
  have right : ∀ op (x y : Cell ρ), y.fault?.isSome = true →
      (Cell.binary E op x y).fault?.isSome = true := by
    intro op x y fault
    cases y with
    | fault f => cases x <;> rfl
    | plain | entry => cases fault
  -- each operation passes on the fault of an operand
  unfold Arena.children at hc
  split at hc
  next node hn =>
    unfold Arena.denote at fault ⊢
    rw [tree_eq hn]
    cases node with
    | leaf | independent | constant | slot => cases hc
    | unary op d =>
      obtain rfl := List.mem_singleton.mp hc
      show (Cell.unary E op _).fault?.isSome = true
      generalize (a.tree c).denote _ = x at fault ⊢
      cases x with
      | fault f => rfl
      | plain | entry => cases fault
    | derivative d k => rfl
    | binary op operands =>
      cases operands with
      | valueTree v t =>
        obtain rfl := List.mem_singleton.mp hc
        exact right op _ _ fault
      | treeValue t v =>
        obtain rfl := List.mem_singleton.mp hc
        exact left op _ _ fault
      | treeTree l r =>
        simp only [Node.children, Operands.trees, List.mem_cons, List.not_mem_nil,
          or_false] at hc
        rcases hc with rfl | rfl
        · exact left op _ _ fault
        · exact right op _ _ fault
  next => cases hc

theorem Arena.fault_of_reaches {h g : Nat} (reach : a.Reaches h g)
    (fault : ((a.denote (Cell.reading E time state leafSlot) g).fault?).isSome = true) :
    ((a.denote (Cell.reading E time state leafSlot) h).fault?).isSome = true := by
  induction reach with
  | refl => exact fault
  | tail _ hc ih => exact ih (fault_of_child hc fault)

/-- A fault goes from a value to the node that mentions it. -/
theorem Arena.fault_of_value {h : Nat} {node : Node} (hn : a.node? h = some node) {v : Nat}
    (hv : v ∈ node.values)
    (fault : ((Cell.ofValue E time (a.value v)).fault?).isSome = true) :
    ((a.denote (Cell.reading E time state leafSlot) h).fault?).isSome = true := by
  unfold Arena.denote
  rw [tree_eq hn]
  cases node with
  | leaf | independent | slot | unary | derivative => cases hv
  | constant u =>
    obtain rfl := List.mem_singleton.mp hv
    exact fault
  | binary op operands =>
    cases operands with
    | valueTree u t =>
      obtain rfl := List.mem_singleton.mp hv
      show (Cell.binary E op (Cell.ofValue E time (a.value v)) _).fault?.isSome = true
      generalize Cell.ofValue E time (a.value v) = x at fault ⊢
      cases x with
      | fault f => rfl
      | plain | entry => cases fault
    | treeValue t u =>
      obtain rfl := List.mem_singleton.mp hv
      show (Cell.binary E op _ (Cell.ofValue E time (a.value v))).fault?.isSome = true
      generalize Cell.ofValue E time (a.value v) = x at fault ⊢
      generalize (a.tree t).denote _ = y
      cases x with
      | fault f => cases y <;> rfl
      | plain | entry => cases fault
    | treeTree => cases hv

end

namespace Program

variable {a : Arena} {leafSlot : Nat → Option Int}

theorem mem_insertConstant {h : Nat} {v : Value} {listed : List (Nat × Value)} {c : Nat × Value}
    (hc : c ∈ insertConstant h v listed) : c = (h, v) ∨ c ∈ listed := by
  induction listed with
  | nil => exact Or.inl (List.mem_singleton.mp hc)
  | cons x xs ih =>
    rw [insertConstant] at hc
    split at hc
    · exact List.mem_cons.mp hc
    · split at hc
      · exact Or.inr hc
      · rcases List.mem_cons.mp hc with rfl | hc
        · exact Or.inr List.mem_cons_self
        · exact (ih hc).imp_right (List.mem_cons_of_mem x)

/-- Registers hold values of the listed nodes, and constants are mentioned by
    them. -/
structure Lowering.Sourced (a : Arena) (leafSlot : Nat → Option Int) (listed : List Nat)
    (l : Lowering) : Prop where
  registers : ∀ {α : Type u} (m : Meaning α), ∀ y ∈ registersOf m l.instructions,
    ∃ g ∈ listed, y = a.denote (m.readingSlots leafSlot) g
  constants : ∀ c ∈ l.constants, ∃ g ∈ listed, ∃ node, a.node? g = some node ∧
    ∃ v ∈ node.values, c.2 = a.value v

namespace Lowering

variable {l : Lowering} {listed before : List Nat} {h : Nat}

theorem Sourced.mono {listed' : List Nat} (sourced : Sourced.{u} a leafSlot listed l)
    (sub : listed ⊆ listed') : Sourced.{u} a leafSlot listed' l := by
  constructor
  · intro α m y hy
    obtain ⟨g, hg, eq⟩ := sourced.registers m y hy
    exact ⟨g, sub hg, eq⟩
  · intro c hc
    obtain ⟨g, hg, known⟩ := sourced.constants c hc
    exact ⟨g, sub hg, known⟩

theorem Sourced.readConstant (sourced : Sourced.{u} a leafSlot listed l) (hh : h ∈ listed)
    {node : Node} (hn : a.node? h = some node) {v : Nat} (hv : v ∈ node.values) :
    Sourced.{u} a leafSlot listed (l.readConstant v (a.value v)) := by
  refine ⟨sourced.registers, ?_⟩
  intro c hc
  rcases mem_insertConstant hc with rfl | hc
  · exact ⟨h, hh, node, hn, v, hv, rfl⟩
  · exact sourced.constants c hc

/-- The new register holds the value of the node that it stands for. -/
theorem Sourced.emit (sourced : Sourced.{u} a leafSlot listed l) (hh : h ∈ listed)
    {i : Instruction} (low : Lowered.{u} a leafSlot listed (l.emit h i)) :
    Sourced.{u} a leafSlot listed (l.emit h i) := by
  refine ⟨?_, sourced.constants⟩
  intro α m y hy
  have value := low.child hh m
  have pushed : registersOf m (l.emit h i).instructions =
      (registersOf m l.instructions).push (evaluate m (registersOf m l.instructions) i) :=
    registersOf_push m l.instructions i
  have argument : (l.emit h i).argument h = .register l.instructions.size := by
    simp [Lowering.argument, Lowering.emit, Lowering.stand]
  rw [argument, pushed, ← size_registersOf m l.instructions] at value
  have value : evaluate m (registersOf m l.instructions) i =
      a.denote (m.readingSlots leafSlot) h := by
    simpa [read] using value
  rw [pushed] at hy
  rcases Array.mem_push.mp hy with hy | rfl
  · exact sourced.registers m y hy
  · exact ⟨h, hh, value⟩

theorem meet_sourced {roots : List Nat} {node : Node} (low : Lowered.{u} a leafSlot before l)
    (sourced : Sourced.{u} a leafSlot before l) (turn : a.Turn roots before h node) :
    Ended (meet a leafSlot l h node) (Sourced.{u} a leafSlot (before ++ [h])) fun _ => True := by
  have mono := sourced.mono (List.subset_append_left before [h])
  have hh : h ∈ before ++ [h] := by simp
  apply Ended.intro ?_ fun _ _ => trivial
  intro l' run
  have low' := (meet_lowered low turn).of_ok run
  -- a node that is no operation adds no register, and constants are read beside their node
  cases node with
  | leaf var =>
    rw [meet] at run
    split at run
    · cases run
      exact ⟨mono.registers, mono.constants⟩
    · cases run
  | independent | slot =>
    cases run
    exact ⟨mono.registers, mono.constants⟩
  | constant v =>
    cases run
    have known := mono.readConstant hh turn.stored (v := v) (by simp [Node.values])
    exact ⟨known.registers, known.constants⟩
  | unary op c =>
    cases run
    exact mono.emit hh low'
  | derivative c k => cases run
  | binary op operands =>
    cases operands with
    | valueTree v t =>
      cases run
      exact (mono.readConstant hh turn.stored (by simp [Node.values, Operands.values])).emit hh low'
    | treeValue t v =>
      cases run
      exact (mono.readConstant hh turn.stored (by simp [Node.values, Operands.values])).emit hh low'
    | treeTree x y =>
      cases run
      exact mono.emit hh low'

end Lowering

/-- Of trees that have been flattened the registers hold values of parts, and the
    constants are mentioned by parts. -/
theorem ofTrees_sourced {roots : List Nat} (inside : ∀ r ∈ roots, r < a.count) {p : Program}
    (flattened : ofTrees a roots leafSlot = .ok p) :
    (∀ {α : Type u} (m : Meaning α),
      p.run m = roots.map fun r => a.denote (m.readingSlots leafSlot) r) ∧
    (∀ {α : Type u} (m : Meaning α), ∀ y ∈ p.registers m,
      ∃ r ∈ roots, ∃ g, a.Reaches r g ∧ y = a.denote (m.readingSlots leafSlot) g) ∧
    ∀ c ∈ p.constants, ∃ r ∈ roots, ∃ g node, a.Reaches r g ∧ a.node? g = some node ∧
      ∃ v ∈ node.values, c.2 = a.value v := by
  have swept : Ended (a.sweepM roots {} (Lowering.meet a leafSlot))
      (fun l => Lowering.Lowered.{u} a leafSlot (a.postorder roots) l ∧
        Lowering.Sourced.{u} a leafSlot (a.postorder roots) l) fun _ => True := by
    apply Arena.ended_sweep inside (fun before l => Lowering.Lowered.{u} a leafSlot before l ∧
      Lowering.Sourced.{u} a leafSlot before l)
    · exact ⟨Lowering.lowered_start, by simp [registersOf], by simp⟩
    · rintro before g node l turn ⟨low, sourced⟩
      apply Ended.intro ?_ fun _ _ => trivial
      exact fun l' run => ⟨(Lowering.meet_lowered low turn).of_ok run,
        (Lowering.meet_sourced low sourced turn).of_ok run⟩
  have run : ∀ {α : Type u} (m : Meaning α),
      p.run m = roots.map fun r => a.denote (m.readingSlots leafSlot) r :=
    fun m => run_ofTrees inside flattened m
  -- the nodes that have been met are those below the roots
  obtain ⟨l, outcome, rfl⟩ := exists_sweep flattened
  obtain ⟨-, sourced⟩ := swept.of_ok outcome
  refine ⟨run, ?_, ?_⟩
  · intro α m y hy
    obtain ⟨g, hg, eq⟩ := sourced.registers m y hy
    obtain ⟨r, hr, reach⟩ := (Arena.mem_postorder inside).mp hg
    exact ⟨r, hr, g, reach, eq⟩
  · intro c hc
    obtain ⟨g, hg, node, hn, known⟩ := sourced.constants c hc
    obtain ⟨r, hr, reach⟩ := (Arena.mem_postorder inside).mp hg
    exact ⟨r, hr, g, node, reach, hn, known⟩

section

variable {ρ : Type} (E : Entries ρ) (time : ρ) (state : Int → Cell ρ)

/-- **A run is stopped exactly if one of its trees is a fault.** -/
theorem isSome_fault?_iff {roots : List Nat} (inside : ∀ r ∈ roots, r < a.count) {p : Program}
    (flattened : ofTrees a roots leafSlot = .ok p) :
    (p.fault? (Cell.meaning E time state)).isSome = true ↔ ∃ r ∈ roots,
      ((a.denote (Cell.reading E time state leafSlot) r).fault?).isSome = true := by
  obtain ⟨run, registers, constants⟩ := ofTrees_sourced inside flattened
  unfold fault?
  rw [List.findSome?_isSome_iff, run (Cell.meaning E time state)]
  constructor
  · rintro ⟨y, hy, fault⟩
    rw [List.mem_append, List.mem_append] at hy
    rcases hy with (hy | hy) | hy
    · obtain ⟨c, hc, eq⟩ := List.mem_filterMap.mp hy
      obtain ⟨r, hr, g, node, reach, hn, v, hv, same⟩ := constants c hc
      refine ⟨r, hr, Arena.fault_of_reaches reach ?_⟩
      apply Arena.fault_of_value hn hv
      obtain ⟨_, value⟩ := c
      dsimp only at eq same
      split at eq
      · cases eq
      · cases eq
        exact same ▸ fault
    · obtain ⟨r, hr, g, reach, rfl⟩ :=
        registers (Cell.meaning E time state) y (Array.mem_toList_iff.mp hy)
      exact ⟨r, hr, Arena.fault_of_reaches reach fault⟩
    · obtain ⟨r, hr, rfl⟩ := List.mem_map.mp hy
      exact ⟨r, hr, fault⟩
  · rintro ⟨r, hr, fault⟩
    exact ⟨_, List.mem_append_right _ (List.mem_map_of_mem hr), fault⟩

/-- The outputs of a program are the values of its trees, unless one of them is a fault. -/
theorem toOption_entries {roots : List Nat} (inside : ∀ r ∈ roots, r < a.count) {p : Program}
    (flattened : ofTrees a roots leafSlot = .ok p) :
    (p.entries E (Cell.meaning E time state)).toOption = (roots.mapM fun r =>
      (a.denote (Cell.reading E time state leafSlot) r).toEntry E).toOption := by
  have stopped := isSome_fault?_iff E time state inside flattened
  have run := (ofTrees_sourced inside flattened).1 (Cell.meaning E time state)
  unfold entries
  rw [run]
  cases found : p.fault? (Cell.meaning E time state) with
  | some f =>
    rw [found] at stopped
    obtain ⟨r, hr, fault⟩ := stopped.mp rfl
    cases outputs : roots.mapM fun r =>
        (a.denote (Cell.reading E time state leafSlot) r).toEntry E with
    | error e => rfl
    | ok ys =>
      -- no list of outputs has an entry for the fault
      obtain ⟨y, -, entry⟩ := exists_mem_of_forall₂_left (mapM_eq_ok_iff.mp outputs) hr
      generalize a.denote (Cell.reading E time state leafSlot) r = c at fault entry
      cases c with
      | fault f => cases entry
      | plain | entry => cases fault
  | none =>
    rw [List.mapM_map]
    rfl

/-- A program has outputs if no tree is a fault, and then they are the values of the trees. -/
theorem entries_eq_ok_iff {roots : List Nat} (inside : ∀ r ∈ roots, r < a.count) {p : Program}
    (flattened : ofTrees a roots leafSlot = .ok p) {ys : List ρ} :
    p.entries E (Cell.meaning E time state) = .ok ys ↔ List.Forall₂ (fun r y =>
      (a.denote (Cell.reading E time state leafSlot) r).toEntry E = .ok y) roots ys := by
  have same := toOption_entries E time state inside flattened
  have result : ∀ {x : Except Fault (List ρ)}, x.toOption = some ys ↔ x = .ok ys := by
    intro x
    cases x <;> simp [Except.toOption]
  rw [← mapM_eq_ok_iff, ← result, same, result]

end

end Program

/-- Evaluation with doubles succeeds if there are outputs, and all of them are real. -/
theorem VectorField.check_iff {f : VectorField} : f.check [f.size] = .ok () ↔ ∃ ys zs,
    f.program.entries .single (Cell.meaning .single (.real 0) fun _ => .entry (.real 0)) = .ok ys ∧
      List.Forall₂ (fun y z => Entry.toReal y = .ok z) ys zs ∧ ys ≠ [] := by
  have shape : f.checkShape [f.size] = .ok () := if_pos rfl
  -- the shape is right, so the fault decides
  have check : f.check [f.size] = .ok () ↔ f.fault? = none := by
    unfold check
    rw [shape]
    cases f.fault? with
    | none => exact ⟨fun _ => rfl, fun _ => rfl⟩
    | some e =>
      constructor
      · intro works
        cases works
      · intro none
        cases none
  rw [check]
  unfold fault?
  dsimp only
  cases f.program.entries .single (Cell.meaning .single (.real 0) fun _ => .entry (.real 0)) with
  | error e =>
    constructor
    · intro works
      cases works
    · rintro ⟨_, _, ⟨⟩, -⟩
  | ok ys =>
    have outputs : (Except.ok ys : Except Fault (List Entry)).bind
        (fun outputs => outputs.mapM Entry.toReal) = ys.mapM Entry.toReal := rfl
    rw [outputs]
    constructor
    · intro works
      cases each : ys.mapM Entry.toReal with
      | error e =>
        rw [each] at works
        cases works
      | ok zs =>
        have related := mapM_eq_ok_iff.mp each
        refine ⟨ys, zs, rfl, related, ?_⟩
        -- without outputs there is nothing to stack
        rintro rfl
        cases related
        cases works
    · rintro ⟨_, zs, ⟨⟩, related, some⟩
      rw [mapM_eq_ok_iff.mpr related]
      cases related with
      | nil => exact absurd rfl some
      | cons => rfl

/-- A field can be evaluated if it has components and each of them is real. -/
theorem VectorField.check_of_trees {a : Arena} {roots : List Nat}
    (inside : ∀ r ∈ roots, r < a.count) {size : Int} {f : VectorField}
    (made : (do VectorField.create (← Program.ofTrees a roots) size) = Except.ok f) :
    f.check [f.size] = .ok () ↔ roots ≠ [] ∧ ∀ r ∈ roots, ∃ y z,
      (a.denote (Cell.reading .single (.real 0) (fun _ => .entry (.real 0)) Program.ownSlot)
        r).toEntry .single = .ok y ∧ Entry.toReal y = .ok z := by
  obtain ⟨p, flattened, made⟩ := exists_ok_of_bind made
  rw [check_iff, (VectorField.of_create made).1]
  simp only [Program.entries_eq_ok_iff _ _ _ inside flattened]
  constructor
  · rintro ⟨ys, zs, left, right, some⟩
    refine ⟨?_, ?_⟩
    · rintro rfl
      cases left
      exact some rfl
    · intro r hr
      obtain ⟨y, output, entry⟩ := exists_mem_of_forall₂_left left hr
      obtain ⟨z, -, real⟩ := exists_mem_of_forall₂_left right output
      exact ⟨y, z, entry, real⟩
  · rintro ⟨some, each⟩
    choose! entry real known using each
    refine ⟨roots.map entry, roots.map real, ?_, ?_, ?_⟩
    · rw [List.forall₂_map_right_iff, List.forall₂_same]
      exact fun r hr => (known r hr).1
    · rw [List.forall₂_map_left_iff, List.forall₂_map_right_iff, List.forall₂_same]
      exact fun r hr => (known r hr).2
    · exact fun none => some (List.map_eq_nil_iff.mp none)

end JetForm
