import JetForm.Proofs.Program.Batch
import JetForm.Proofs.Program.Faults
import JetForm.Proofs.Tree.Calls

/-! # Other constants in the same trees

    An evaluator is made from trees, and trees refer to their constants by
    handles.  So one may ask what an evaluator would be if another constant stood
    under a handle.

    Flattening looks at nodes and not at constants, only copies them, so that the
    same trees become the same program with other constants in it: `Mirrors` says
    this of what has been flattened so far and goes through one sweep.  Running
    looks at constants through their operations alone, and these do not ask for
    the origin of a number.  It follows that constants that differ in their origin
    alone take each other's place in every evaluator. -/

namespace JetForm

/-! ## Other values in an arena -/

namespace Arena

variable {a b : Arena} {g : Nat → Value → Value}

/-- The arena with another value under the handle `h`. -/
def withValue (a : Arena) (h : Nat) (v : Value) : Arena :=
  { a with values := a.values.setIfInBounds h v }

/-- The arenas differ in their values alone, and `g` tells how. -/
structure Revalues (g : Nat → Value → Value) (a b : Arena) : Prop where
  nodes : b.nodes = a.nodes
  infos : b.infos = a.infos
  size : b.size = a.size
  value : ∀ v, b.value v = g v (a.value v)

theorem Revalues.node? (re : a.Revalues g b) (h : Nat) : b.node? h = a.node? h :=
  congrArg (·[h]?) re.nodes

theorem Revalues.postorderLoop (re : a.Revalues g b) (stack : List Visit) (seen : Array Bool)
    (out : Array Nat) : b.postorderLoop stack seen out = a.postorderLoop stack seen out := by
  fun_induction a.postorderLoop stack seen out with
  | case1 seen out => rw [Arena.postorderLoop]
  | case2 seen out h rest ih => rw [Arena.postorderLoop, ih]
  | case3 seen out h rest none ih =>
    rw [Arena.postorderLoop, re.node? h, none, ih]
  | case4 seen out h rest node stored unseen fresh ih =>
    rw [Arena.postorderLoop, re.node? h, stored]
    simp only [unseen, dite_true]
    exact ih
  | case5 seen out h rest node stored seen' ih =>
    rw [Arena.postorderLoop, re.node? h, stored]
    simp only [seen', dite_false]
    exact ih

theorem Revalues.postorder (re : a.Revalues g b) (roots : List Nat) :
    b.postorder roots = a.postorder roots := by
  unfold Arena.postorder
  simp only [Arena.count, re.nodes, re.postorderLoop]

end Arena

namespace Program

/-! ## Flattening with other values -/

variable {a b : Arena} {g : Nat → Value → Value} {leafSlot : Nat → Option Int}

theorem insertConstant_withValues (h : Nat) (v : Value) (listed : List (Nat × Value)) :
    insertConstant h (g h v) (listed.map fun c => (c.1, g c.1 c.2)) =
      (insertConstant h v listed).map fun c => (c.1, g c.1 c.2) := by
  induction listed with
  | nil => rfl
  | cons c listed ih =>
    simp only [List.map_cons, insertConstant]
    split
    · rfl
    · split
      · rfl
      · rw [List.map_cons, ih]

namespace Lowering

/-- The same has been flattened, with other values. -/
structure Mirrors (g : Nat → Value → Value) (l l' : Lowering) : Prop where
  arguments : ∀ h : Nat, l'.arguments[h]? = (l.arguments[h]?).map (Argument.withValues g)
  instructions : l'.instructions = l.instructions.map (Instruction.withValues g)
  slots : l'.slots = l.slots
  constants : l'.constants = l.constants.map fun c => (c.1, g c.1 c.2)
  usesTime : l'.usesTime = l.usesTime

variable {l l' : Lowering}

theorem Mirrors.argument (mirrors : Mirrors g l l') (h : Nat) :
    l'.argument h = (l.argument h).withValues g := by
  unfold Lowering.argument
  rw [mirrors.arguments]
  cases l.arguments[h]? <;> rfl

theorem Mirrors.stand (mirrors : Mirrors g l l') (h : Nat) (x : Argument) :
    Mirrors g (l.stand h x) (l'.stand h (x.withValues g)) := by
  refine ⟨fun k => ?_, mirrors.instructions, mirrors.slots, mirrors.constants, mirrors.usesTime⟩
  simp only [Lowering.stand, Std.HashMap.getElem?_insert]
  split
  · rfl
  · exact mirrors.arguments k

theorem Mirrors.readSlot (mirrors : Mirrors g l l') (s : Int) :
    Mirrors g (l.readSlot s) (l'.readSlot s) :=
  ⟨mirrors.arguments, mirrors.instructions, congrArg (insertSlot s) mirrors.slots,
    mirrors.constants, mirrors.usesTime⟩

theorem Mirrors.readConstant (mirrors : Mirrors g l l') (h : Nat) (v : Value) :
    Mirrors g (l.readConstant h v) (l'.readConstant h (g h v)) := by
  refine ⟨mirrors.arguments, mirrors.instructions, mirrors.slots, ?_, mirrors.usesTime⟩
  rw [Lowering.readConstant, Lowering.readConstant, mirrors.constants]
  exact insertConstant_withValues h v l.constants

theorem Mirrors.emit (mirrors : Mirrors g l l') (h : Nat) (i : Instruction) :
    Mirrors g (l.emit h i) (l'.emit h (i.withValues g)) := by
  have size : l'.instructions.size = l.instructions.size := by
    rw [mirrors.instructions, Array.size_map]
  have stand := mirrors.stand h (.register l.instructions.size)
  refine ⟨?_, ?_, stand.slots, stand.constants, stand.usesTime⟩
  · intro k
    rw [Lowering.emit, Lowering.emit, size]
    exact stand.arguments k
  · rw [Lowering.emit, Lowering.emit, mirrors.instructions]
    exact (Array.map_push ..).symm

theorem Mirrors.meet (re : a.Revalues g b) (mirrors : Mirrors g l l') (h : Nat) (node : Node) :
    EndAlike (Mirrors g) (meet a leafSlot l h node) (meet b leafSlot l' h node) := by
  cases node with
  | leaf var =>
    cases slot : leafSlot var with
    | none =>
      simp only [Lowering.meet, slot]
      exact EndAlike.error _
    | some s =>
      simp only [Lowering.meet, slot]
      exact EndAlike.ok ((mirrors.readSlot s).stand h (.state s))
  | slot index var order => exact EndAlike.ok ((mirrors.readSlot index).stand h (.state index))
  | independent =>
    have timed : Mirrors g { l with usesTime := true } { l' with usesTime := true } :=
      ⟨mirrors.arguments, mirrors.instructions, mirrors.slots, mirrors.constants, rfl⟩
    exact EndAlike.ok (timed.stand h .time)
  | constant v =>
    simp only [Lowering.meet, re.value]
    exact EndAlike.ok ((mirrors.readConstant v (a.value v)).stand h (.constant v (a.value v)))
  | unary op c =>
    simp only [Lowering.meet, mirrors.argument c]
    exact EndAlike.ok (mirrors.emit h (.unary op (l.argument c)))
  | derivative c k =>
    -- the error names an unknown, which is a matter of the infos
    have info : b.info h = a.info h := by
      unfold Arena.info
      rw [re.infos, re.size]
    simp only [Lowering.meet, info]
    exact EndAlike.error _
  | binary op operands =>
    cases operands with
    | valueTree v t =>
      simp only [Lowering.meet, re.value, mirrors.argument t]
      exact EndAlike.ok ((mirrors.readConstant v (a.value v)).emit h
        (.binary op (.constant v (a.value v)) (l.argument t)))
    | treeValue t v =>
      simp only [Lowering.meet, re.value, mirrors.argument t]
      exact EndAlike.ok ((mirrors.readConstant v (a.value v)).emit h
        (.binary op (l.argument t) (.constant v (a.value v))))
    | treeTree x y =>
      simp only [Lowering.meet, mirrors.argument x, mirrors.argument y]
      exact EndAlike.ok (mirrors.emit h (.binary op (l.argument x) (l.argument y)))

end Lowering

/-- With other values the same trees become the same program with other values, or
    fail alike. -/
theorem ofTrees_revalued (re : a.Revalues g b) (roots : List Nat) :
    EndAlike (fun p q => q = p.withValues g) (ofTrees a roots leafSlot)
      (ofTrees b roots leafSlot) := by
  unfold ofTrees
  have handles : b.requireNodes roots = a.requireNodes roots := by
    rw [Arena.requireNodes, Arena.requireNodes, re.nodes]
  rw [handles]
  cases a.requireNodes roots with
  | error e => exact EndAlike.error e
  | ok _ =>
    -- the sweeps visit the same nodes, for they share the post-order
    have start : Lowering.Mirrors g {} {} := by
      refine ⟨fun h => ?_, ?_, rfl, rfl, rfl⟩ <;> simp
    have swept : EndAlike (Lowering.Mirrors g) (a.sweepM roots {} (Lowering.meet a leafSlot))
        (b.sweepM roots {} (Lowering.meet b leafSlot)) := by
      unfold Arena.sweepM
      rw [re.postorder]
      apply EndAlike.foldlM start
      intro l l' h mirrors
      rw [re.node? h]
      cases a.node? h with
      | none => exact EndAlike.ok mirrors
      | some node => exact mirrors.meet re h node
    apply swept.bind
    intro l l' mirrors
    apply EndAlike.ok
    have outputs : roots.map l'.argument = (roots.map l.argument).map (Argument.withValues g) := by
      rw [List.map_map]
      exact List.map_congr_left fun r _ => mirrors.argument r
    simp only [withValues, mirrors.instructions, mirrors.slots, mirrors.constants,
      mirrors.usesTime, outputs]

end Program

/-! ## Running with other values -/

/-- A cell without its origin is what operations go by. -/
def Cell.Same {ρ : Type} (c d : Cell ρ) : Prop :=
  c.bare = d.bare

namespace Cell

variable {ρ : Type} {c d : Cell ρ}

theorem Same.fault? (same : Same c d) : c.fault? = d.fault? := by
  have bare : ∀ c : Cell ρ, c.bare.fault? = c.fault? := fun c => by cases c <;> rfl
  rw [← bare c, same, bare d]

theorem Same.toEntry (E : Entries ρ) (same : Same c d) : c.toEntry E = d.toEntry E := by
  rw [← toEntry_bare, same, toEntry_bare]

end Cell

/-- The origin of a number does not matter to its kind. -/
theorem Value.isNumber_bare (v : Value) : v.bare.isNumber = v.isNumber := by
  cases v <;> rfl

namespace Program

variable {ρ : Type} {g : Nat → Value → Value} (bare : ∀ h v, (g h v).bare = v.bare)
include bare

/-- Values that differ in their origin alone are computed with alike. -/
theorem abreast_of_bare (p : Program) (E : Entries ρ) (time : ρ) (state : Int → Cell ρ) :
    p.Abreast g Cell.Same (Cell.meaning E time state) (Cell.meaning E time state) where
  unary op c d same := by
    show (Cell.unary E op c).bare = (Cell.unary E op d).bare
    rw [← Cell.unary_bare, same, Cell.unary_bare]
  binary op c d c' d' left right := by
    show (Cell.binary E op c d).bare = (Cell.binary E op c' d').bare
    rw [← Cell.binary_bare, left, right, Cell.binary_bare]
  time := rfl
  state _ _ := rfl
  value h v _ := by
    show (Cell.ofValue E time v).bare = (Cell.ofValue E time (g h v)).bare
    rw [← Cell.ofValue_bare, ← bare h v, Cell.ofValue_bare]

theorem fault?_withValues (p : Program) (E : Entries ρ) (time : ρ) (state : Int → Cell ρ) :
    (p.withValues g).fault? (Cell.meaning E time state) =
      p.fault? (Cell.meaning E time state) := by
  have kinds : ∀ h v, (g h v).isNumber = v.isNumber := fun h v => by
    rw [← Value.isNumber_bare, bare, Value.isNumber_bare]
  exact ((abreast_of_bare bare p E time state).fault? kinds fun _ _ => Cell.Same.fault?).symm

/-- Computing with the entries of the outputs. -/
theorem mapM_run_withValues {α ε : Type} (p : Program) (E : Entries ρ) (time : ρ)
    (state : Int → Cell ρ) (f : Except Fault ρ → Except ε α) :
    ((p.withValues g).run (Cell.meaning E time state)).mapM (fun c => f (c.toEntry E)) =
      (p.run (Cell.meaning E time state)).mapM fun c => f (c.toEntry E) := by
  have related := (abreast_of_bare bare p E time state).run
  generalize (p.withValues g).run (Cell.meaning E time state) = ds at related ⊢
  generalize p.run (Cell.meaning E time state) = cs at related ⊢
  induction related with
  | nil => rfl
  | cons same _ ih => rw [List.mapM_cons, List.mapM_cons, ih, Cell.Same.toEntry E same]

end Program

/-! ## Evaluators -/

theorem VectorField.create_withValues {g : Nat → Value → Value} (p : Program) (size : Int) :
    EndAlike (fun f f' => f'.program = f.program.withValues g ∧ f'.size = f.size) (create p size)
      (create (p.withValues g) size) := by
  have length : (p.withValues g).outputs.length = p.outputs.length := List.length_map _
  have slots : (p.withValues g).slots = p.slots := rfl
  unfold create
  simp only [length, slots]
  split
  · split
    · exact EndAlike.ok ⟨rfl, rfl⟩
    · exact EndAlike.error _
  · exact EndAlike.error _

theorem ScalarFunction.create_withValues {g : Nat → Value → Value} (p : Program) (name : String) :
    EndAlike (fun f f' => f'.program = f.program.withValues g ∧ f'.name = f.name) (create p name)
      (create (p.withValues g) name) := by
  have length : (p.withValues g).outputs.length = p.outputs.length := List.length_map _
  unfold create
  simp only [length]
  split
  · exact EndAlike.ok ⟨rfl, rfl⟩
  · exact EndAlike.error _

section

variable {g : Nat → Value → Value} (bare : ∀ h v, (g h v).bare = v.bare)
include bare

theorem VectorField.call_withValues {f f' : VectorField} (program : f'.program = f.program.withValues g)
    (size : f'.size = f.size) (t x : Tensor Float) : f'.call t x = f.call t x := by
  have outputs : ∀ batch time state,
      stackOutputs batch ((f.program.withValues g).run (Cell.meaning .tensor time state)) =
        stackOutputs batch (f.program.run (Cell.meaning .tensor time state)) := by
    intro batch time state
    rw [stackOutputs_eq, stackOutputs_eq]
    exact congrArg stackRows (Program.mapM_run_withValues bare f.program .tensor time state
      (· >>= fun x => Entries.zipTensors (Entry.combine .plus) x
        (Tensor.ofFn batch fun _ => Entry.real 0)))
  unfold call checkShape
  dsimp only
  rw [size, program, Program.fault?_withValues bare]
  simp only [outputs]

theorem Program.entries_withValues {ρ : Type} (p : Program) (E : Entries ρ) (time : ρ)
    (state : Int → Cell ρ) : (p.withValues g).entries E (Cell.meaning E time state) =
      p.entries E (Cell.meaning E time state) := by
  have outputs : ((p.withValues g).run (Cell.meaning E time state)).mapM (Cell.toEntry E) =
      (p.run (Cell.meaning E time state)).mapM (Cell.toEntry E) :=
    mapM_run_withValues bare p E time state id
  unfold entries
  rw [fault?_withValues bare, outputs]

omit bare in
theorem ScalarFunction.isShadowing_withValues {f f' : ScalarFunction}
    (program : f'.program = f.program.withValues g) (name : f'.name = f.name) :
    f'.isShadowing = f.isShadowing := by
  unfold isShadowing
  rw [program, name, Program.withValues, Array.any_map]
  congr 1
  funext i
  cases i <;> rfl

theorem ScalarFunction.call_withValues {f f' : ScalarFunction}
    (program : f'.program = f.program.withValues g) (name : f'.name = f.name) (t : Tensor Float)
    (x : Option (Tensor Float)) : f'.call t x = f.call t x := by
  unfold call entries
  dsimp only
  rw [isShadowing_withValues program name, name, program, Program.entries_withValues bare]

end

namespace Arena

/-- What the field with the given trees as components gives in a call. -/
def callField (a : Arena) (roots : List Nat) (leafSlot : Nat → Option Int) (size : Int)
    (t x : Tensor Float) : Except Error (Tensor Float) := do
  let f ← VectorField.create (← Program.ofTrees a roots leafSlot) size
  f.call t x

/-- What the function with the given tree gives in a call. -/
def callFunction (a : Arena) (roots : List Nat) (leafSlot : Nat → Option Int) (name : String)
    (t : Tensor Float) (x : Option (Tensor Float)) : Except Error (Tensor Float) := do
  let f ← ScalarFunction.create (← Program.ofTrees a roots leafSlot) name
  f.call t x

/-- Every evaluator that one arena gives does what the other arena's does, at
    every time and state. -/
structure SameEvaluators (a b : Arena) : Prop where
  field : ∀ roots leafSlot size t x,
    b.callField roots leafSlot size t x = a.callField roots leafSlot size t x
  function : ∀ roots leafSlot name t x,
    b.callFunction roots leafSlot name t x = a.callFunction roots leafSlot name t x

/-- The value under the handle `h` behaves as `v` does: however the arena grows,
    no evaluator changes if `v` takes its place. -/
def Behaves (a : Arena) (h : Nat) (v : Value) : Prop :=
  ∀ c, a.Later c → c.SameEvaluators (c.withValue h v)

variable {a b : Arena}

theorem Revalues.sameEvaluators {g : Nat → Value → Value} (re : a.Revalues g b)
    (bare : ∀ h v, (g h v).bare = v.bare) : a.SameEvaluators b := by
  constructor
  · intro roots leafSlot size t x
    refine (EndAlike.eq ((Program.ofTrees_revalued re roots).bind ?_)).symm
    rintro p q rfl
    apply (VectorField.create_withValues p size).bind
    rintro f f' ⟨program, sizes⟩
    exact EndAlike.of_eq (VectorField.call_withValues bare program sizes t x).symm
  · intro roots leafSlot name t x
    refine (EndAlike.eq ((Program.ofTrees_revalued re roots).bind ?_)).symm
    rintro p q rfl
    apply (ScalarFunction.create_withValues p name).bind
    rintro f f' ⟨program, names⟩
    exact EndAlike.of_eq (ScalarFunction.call_withValues bare program names t x).symm

/-- Two values that differ in their origin alone take each other's place. -/
theorem sameEvaluators_withValue {h : Nat} (inside : h < a.values.size) {v w : Value}
    (bare : v.bare = w.bare) : (a.withValue h v).SameEvaluators (a.withValue h w) := by
  -- under `h` there is only `v`, so a function of the value can tell what to put
  have re : (a.withValue h v).Revalues (fun k u => if k = h ∧ u = v then w else u)
      (a.withValue h w) := by
    refine ⟨rfl, rfl, rfl, fun k => ?_⟩
    by_cases same : k = h
    · subst same
      simp [value, withValue, inside]
    · simp [value, withValue, same, Ne.symm same]
  apply re.sameEvaluators
  intro k u
  split
  next both => rw [both.2, bare]
  next => rfl

end Arena

end JetForm
