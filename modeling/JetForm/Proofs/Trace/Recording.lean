import JetForm.Proofs.Trace.Expression

/-! # Operations that always succeed

    What is known of an operation is what its result is, if it has one.  Two
    operations on a traced expression have one in any case: a derivative whose
    order is a natural number, and the difference with a real number.  Of their
    results the trees are known, so nothing is left open. -/

namespace JetForm

variable {w : Workspace}

/-- The derivative as it is recorded.  The one of order zero is the tree itself. -/
def Tree.differentiated (t : Tree) (k : Nat) : Tree :=
  if k = 0 then t else .derivative t k

namespace Traced

variable {e : Traced} {t : Tree} {d : Domain Float}

theorem diff_ends (wf : w.WellFormed) (is : e.Is t d w) (k : Nat) :
    Ends (e.diff (.number (.int k))) w
      (fun r w' => w.Grows w' ∧ r.Is (t.differentiated k) d w' ∧ r.arena = e.arena)
      fun _ _ => False := by
  obtain ⟨tree, domain⟩ := is.fits
  cases k with
  | zero => exact Ends.pure ⟨.refl wf, is, rfl⟩
  | succ k =>
    show Ends (do make e.arena (← Workspace.within e.arena
      (Arena.derivative e.handle (k + 1))) e.domain) w _ _
    rw [domain]
    apply within_make_ends wf is.arena
    · exact tree ▸ is.recorded
    · have made := Arena.derivative_makes (wf e.arena) (Nat.succ_pos k) is.inside
      rwa [tree] at made

end Traced

namespace Expression

/-- A real number is a value as it stands. -/
theorem externalValue_number {n : Number} (real : n.isReal = true) (op : String) (e : Traced) :
    externalValue op (.number n) e = pure (.number n) := by
  unfold externalValue
  cases n with
  | wide x origin => exact if_pos real
  | bool | int | double | complex =>
    dsimp only
    rw [Operand.realNumber?, if_pos real]

/-- The difference of an expression and a real number. -/
theorem minus_ends (wf : w.WellFormed) {e : Traced} {t : Tree} {d : Domain Float}
    (is : e.Is t d w) {n : Number} (real : n.isReal = true) :
    Ends (combine BinaryOp.minus.name (.traced e) (.number n)) w
      (fun r w' => w.Grows w' ∧ r.Is (.treeValue .minus t (Value.number n).key) d w' ∧
        r.arena = e.arena) fun _ _ => False := by
  obtain ⟨tree, domain⟩ := is.fits
  show Ends (joinValue BinaryOp.minus.name (.number n) e fun value => .treeValue e.handle value)
    w _ _
  unfold joinValue
  rw [externalValue_number real, pure_bind]
  show Ends (do Traced.make e.arena (← Workspace.within e.arena do
    binary BinaryOp.minus.name (.treeValue e.handle (← Arena.intern (.number n)))) e.domain) w _ _
  rw [domain]
  -- a real number beside a recorded tree can be recorded, and only a quotient could be refused
  apply Traced.within_make_ends wf is.arena
  · have value : (Value.number n).key.isReal = true := by
      rw [Value.isReal_key]
      exact real
    rw [Tree.recorded, value, Bool.and_true]
    exact tree ▸ is.recorded
  · apply Ends.bind
    apply (Arena.intern_interns (wf e.arena) (.number n)).weaken
    intro x a interned
    have inside := interned.grown.lt_count is.inside
    have same := interned.grown.expression (wf e.arena) is.inside
    apply (Arena.treeValue_makes interned.wellFormed .minus inside interned.inside).mono
    · intro h b made
      rw [interned.key, same, tree] at made
      exact made.after interned.grown
    · intro e b divides
      cases divides

end Expression

end JetForm
