import JetForm.Program.Cell
import JetForm.Proofs.Program.Symbols

/-! # Two runs side by side

    A program that is run with two meanings computes related values if what it
    reads is related and the operations preserve the relation.  Nothing else is
    asked of the relation, so it may relate a tensor with one of its entries, or
    a number with the same number of another origin.

    The second run may be that of the program with other values in the places of
    its constants (`Program.withValues`). -/

namespace JetForm

/-! ## Other values -/

/-- The argument with another value, if it is a constant. -/
def Argument.withValues (g : Nat → Value → Value) : Argument → Argument
  | .constant h v => .constant h (g h v)
  | x => x

def Instruction.withValues (g : Nat → Value → Value) : Instruction → Instruction
  | .unary op x => .unary op (x.withValues g)
  | .binary op x y => .binary op (x.withValues g) (y.withValues g)

namespace Program

/-- The program with other values for its constants, which keep their handles. -/
def withValues (g : Nat → Value → Value) (p : Program) : Program where
  instructions := p.instructions.map (Instruction.withValues g)
  outputs := p.outputs.map (Argument.withValues g)
  slots := p.slots
  constants := p.constants.map fun c => (c.1, g c.1 c.2)
  usesTime := p.usesTime

theorem withValues_same (p : Program) : p.withValues (fun _ v => v) = p := by
  have argument : Argument.withValues (fun _ v => v) = id := by
    funext x
    cases x <;> rfl
  have instruction : Instruction.withValues (fun _ v => v) = id := by
    funext i
    cases i <;> simp [Instruction.withValues, argument]
  simp [withValues, argument, instruction]

/-! ## Related runs -/

variable {α β : Type}

/-- The operations preserve the relation, and what the program reads or lists is
    related. -/
structure Abreast (p : Program) (g : Nat → Value → Value) (R : α → β → Prop) (m : Meaning α)
    (m' : Meaning β) : Prop where
  unary : ∀ op x y, R x y → R (m.unary op x) (m'.unary op y)
  binary : ∀ op x y x' y', R x x' → R y y' → R (m.binary op x y) (m'.binary op x' y')
  time : R m.time m'.time
  state : ∀ s, p.Reads (.state s) → R (m.state s) (m'.state s)
  value : ∀ h v, p.Reads (.constant h v) ∨ (h, v) ∈ p.constants →
    R (m.value v) (m'.value (g h v))

namespace Abreast

variable {p : Program} {g : Nat → Value → Value} {R : α → β → Prop} {m : Meaning α}
  {m' : Meaning β}

theorem read (abreast : p.Abreast g R m m') {regs : List α} {regs' : List β}
    (related : List.Forall₂ R regs regs') {x : Argument} (reads : p.Reads x) :
    R (Program.read m regs.toArray x) (Program.read m' regs'.toArray (x.withValues g)) := by
  cases x with
  | state s => exact abreast.state s reads
  | time => exact abreast.time
  | constant h v => exact abreast.value h v (Or.inl reads)
  | register i =>
    simp only [Program.read, Argument.withValues, List.getElem?_toArray]
    cases there : regs[i]? with
    | some y =>
      obtain ⟨y', there', known⟩ := exists_of_forall₂_left related there
      rw [there']
      exact known
    | none =>
      -- a register that is not written stands for the time in both runs
      have missing : regs'[i]? = none := by
        rw [List.getElem?_eq_none_iff, ← related.length_eq]
        exact List.getElem?_eq_none_iff.mp there
      rw [missing]
      exact abreast.time

theorem evaluate (abreast : p.Abreast g R m m') {regs : List α} {regs' : List β}
    (related : List.Forall₂ R regs regs') {i : Instruction} (hi : i ∈ p.instructions) :
    R (Program.evaluate m regs.toArray i) (Program.evaluate m' regs'.toArray (i.withValues g)) := by
  have argument : ∀ x ∈ i.arguments, R (Program.read m regs.toArray x)
      (Program.read m' regs'.toArray (x.withValues g)) :=
    fun x hx => abreast.read related (Or.inl ⟨i, hi, hx⟩)
  cases i with
  | unary op x => exact abreast.unary op _ _ (argument x (by simp [Instruction.arguments]))
  | binary op x y =>
    exact abreast.binary op _ _ _ _ (argument x (by simp [Instruction.arguments]))
      (argument y (by simp [Instruction.arguments]))

/-- The registers are written one after the other, each related to its partner. -/
theorem registers (abreast : p.Abreast g R m m') :
    List.Forall₂ R (p.registers m).toList ((p.withValues g).registers m').toList := by
  rw [Program.registers, Program.registers, withValues, Array.foldl_map, ← Array.foldl_toList,
    ← Array.foldl_toList]
  -- generalized to a suffix of the instructions and the registers before it
  have rest : ∀ (is : List Instruction) (regs : Array α) (regs' : Array β),
      (∀ i ∈ is, i ∈ p.instructions) → List.Forall₂ R regs.toList regs'.toList →
      List.Forall₂ R (is.foldl (fun regs i => regs.push (Program.evaluate m regs i)) regs).toList
        (is.foldl (fun regs i => regs.push (Program.evaluate m' regs (i.withValues g)))
          regs').toList := by
    intro is
    induction is with
    | nil => exact fun regs regs' _ related => related
    | cons i is ih =>
      intro regs regs' listed related
      rw [List.foldl_cons, List.foldl_cons]
      apply ih _ _ fun j hj => listed j (List.mem_cons_of_mem i hj)
      rw [Array.toList_push, Array.toList_push]
      have written := abreast.evaluate related (listed i List.mem_cons_self)
      exact List.rel_append related (List.Forall₂.cons written List.Forall₂.nil)
  exact rest _ _ _ (fun i hi => Array.mem_toList_iff.mp hi) List.Forall₂.nil

theorem run (abreast : p.Abreast g R m m') :
    List.Forall₂ R (p.run m) ((p.withValues g).run m') := by
  rw [Program.run, Program.run, withValues, List.map_map, List.forall₂_map_left_iff,
    List.forall₂_map_right_iff, List.forall₂_same]
  exact fun x hx => abreast.read abreast.registers (Or.inr hx)

end Abreast

/-! ## Faults of related runs -/

/-- The first fault of two related lists of cells. -/
theorem findSome?_fault {ρ σ : Type} {R : Cell ρ → Cell σ → Prop} {cs : List (Cell ρ)}
    {ds : List (Cell σ)} (faults : ∀ c d, R c d → c.fault? = d.fault?)
    (related : List.Forall₂ R cs ds) : cs.findSome? Cell.fault? = ds.findSome? Cell.fault? := by
  induction related with
  | nil => rfl
  | cons first _ ih => rw [List.findSome?_cons, List.findSome?_cons, faults _ _ first, ih]

/-- If related cells have the same fault, related runs are stopped by the same
    one. -/
theorem Abreast.fault? {ρ σ : Type} {p : Program} {g : Nat → Value → Value}
    {R : Cell ρ → Cell σ → Prop} {m : Meaning (Cell ρ)} {m' : Meaning (Cell σ)}
    (abreast : p.Abreast g R m m') (kinds : ∀ h v, (g h v).isNumber = v.isNumber)
    (faults : ∀ c d, R c d → c.fault? = d.fault?) :
    p.fault? m = (p.withValues g).fault? m' := by
  have externals : List.Forall₂ R
      (p.constants.filterMap fun c => if c.2.isNumber then none else some (m.value c.2))
      ((p.withValues g).constants.filterMap fun c =>
        if c.2.isNumber then none else some (m'.value c.2)) := by
    show List.Forall₂ R _ ((p.constants.map _).filterMap _)
    rw [List.filterMap_map]
    have listed : ∀ c ∈ p.constants, R (m.value c.2) (m'.value (g c.1 c.2)) :=
      fun c hc => abreast.value c.1 c.2 (Or.inr hc)
    generalize p.constants = constants at listed
    induction constants with
    | nil => exact List.Forall₂.nil
    | cons c rest ih =>
      have tail := ih fun d hd => listed d (List.mem_cons_of_mem c hd)
      obtain ⟨h, v⟩ := c
      cases kind : v.isNumber with
      | true => simpa [kinds, kind] using tail
      | false =>
        have head := listed (h, v) List.mem_cons_self
        simpa [kinds, kind] using And.intro head tail
  exact findSome?_fault faults (List.rel_append (List.rel_append externals abreast.registers) abreast.run)

end Program

end JetForm
