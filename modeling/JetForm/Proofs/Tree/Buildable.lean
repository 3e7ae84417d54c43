import JetForm.Proofs.Program.Reading
import JetForm.Proofs.Tree.NormalForm
import JetForm.Proofs.Tree.Solid

/-! # Normal forms that can be built

    A tree can be normalised if it has a normal form and this one is solid.  What
    contains a tree that cannot, cannot be normalised either, so it is known where
    the pass over an arena stops, and `Tree.Stuck` adds with which error: something
    lets no derivative through, or a number by which the tree divides has no
    reciprocal.  Whether a tree is stuck does not depend on what the arena holds
    besides. -/

namespace JetForm

namespace Tree

/-- There is no such tree, or it is not solid. -/
def Unbuildable (t : Option Tree) : Prop :=
  ∀ t', t = some t' → t'.solid = false

theorem unbuildable_none : Unbuildable none :=
  nofun

/-- What contains an unbuildable tree is unbuildable. -/
theorem Unbuildable.map {t : Option Tree} (stuck : Unbuildable t) {f : Tree → Tree}
    (part : ∀ t, (f t).solid = true → t.solid = true) : Unbuildable (t.map f) := by
  intro t' eq
  obtain ⟨c, rfl, rfl⟩ := Option.map_eq_some_iff.mp eq
  rw [← Bool.not_eq_true]
  intro solid
  exact absurd (part c solid) (by simp [stuck c rfl])

/-- The derivative of a bare tree is bare. -/
theorem Pushes.isBare {k : Nat} {t t' : Tree} (pushes : Pushes k t t') (bare : t.isBare = true) :
    t'.isBare = true := by
  cases pushes with
  | leaf | derivative => rfl
  | independent | constant | sign | sum | afterNumber | fromNumber | timesNumber | beforeNumber
    | scale => cases bare

/-- A derivative contains the operations of the tree that is derived. -/
theorem Pushes.solid {k : Nat} {t t' : Tree} (pushes : Pushes k t t') (solid : t'.solid = true) :
    t.solid = true := by
  induction pushes with
  | leaf | independent | constant => rfl
  | derivative => exact solid
  | sign _ _ ih | fromNumber _ ih | timesNumber _ ih | afterNumber _ ih => exact ih solid
  | sum _ _ _ ihl ihr =>
    obtain ⟨left, right⟩ := Bool.and_eq_true_iff.mp solid
    exact Bool.and_eq_true_iff.mpr ⟨ihl left, ihr right⟩
  | beforeNumber sum _ ih =>
    rcases sum with rfl | rfl <;> exact Bool.and_eq_true_iff.mpr ⟨rfl, ih solid⟩
  | @scale op n t t' product pushed ih =>
    obtain ⟨divides, child⟩ := Bool.and_eq_true_iff.mp solid
    refine Bool.and_eq_true_iff.mpr ⟨?_, ih child⟩
    rw [divisible] at divides ⊢
    cases bare : t.isBare with
    | false => simp
    | true => rwa [pushed.isBare bare] at divides

/-- A tree has no normal form that can be built if a part of it has none. -/
theorem Unbuildable.of_child (t : Tree) :
    ∀ c ∈ t.children, Unbuildable c.normalForm → Unbuildable t.normalForm := by
  intro c hc stuck
  have strict : ∀ c k, (fun _ k c => c.bind (·.push k) : Tree → Nat → Option Tree → Option Tree)
      c k none = none := fun _ _ => rfl
  -- a child without a normal form leaves the tree without one as well
  cases found : c.normalForm with
  | none =>
    have none : t.normalForm = none := rebuild_none strict t c hc found
    rw [none]
    exact unbuildable_none
  | some c' =>
    have broken := stuck c' found
    intro t' eq
    rw [← Bool.not_eq_true]
    intro solid
    -- the normal form of the child is a part of that of the tree, or pushed into it
    have : c'.solid = true := by
      cases t with
      | leaf | independent | constant | slot => simp [children] at hc
      | unary op t =>
        obtain rfl := List.mem_singleton.mp hc
        obtain ⟨_, normal, rfl⟩ := Option.map_eq_some_iff.mp eq
        exact Option.some.inj (found.symm.trans normal) ▸ solid
      | valueTree op v t =>
        obtain rfl := List.mem_singleton.mp hc
        obtain ⟨_, normal, rfl⟩ := Option.map_eq_some_iff.mp eq
        exact Option.some.inj (found.symm.trans normal) ▸ solid
      | treeValue op t v =>
        obtain rfl := List.mem_singleton.mp hc
        obtain ⟨_, normal, rfl⟩ := Option.map_eq_some_iff.mp eq
        exact Option.some.inj (found.symm.trans normal) ▸ (Bool.and_eq_true_iff.mp solid).2
      | treeTree op l r =>
        obtain ⟨l', left, eq⟩ := Option.bind_eq_some_iff.mp eq
        obtain ⟨r', right, rfl⟩ := Option.map_eq_some_iff.mp eq
        obtain ⟨solidl, solidr⟩ := Bool.and_eq_true_iff.mp solid
        simp only [children, List.mem_cons, List.not_mem_nil, or_false] at hc
        rcases hc with rfl | rfl
        · exact Option.some.inj (found.symm.trans left) ▸ solidl
        · exact Option.some.inj (found.symm.trans right) ▸ solidr
      | derivative t k =>
        obtain rfl := List.mem_singleton.mp hc
        obtain ⟨_, normal, pushed⟩ := Option.bind_eq_some_iff.mp eq
        exact Option.some.inj (found.symm.trans normal) ▸ (pushes_of_push pushed).solid solid
    exact absurd this (by simp [broken])

/-- Why there is no derivative or normal form of tree `t` that can be built, and the error that
    says so: something lets no derivative through, or `t` divides by a number that has no
    reciprocal. -/
def Stuck (t : Tree) (result : Option Tree) (e : Error) : Prop :=
  (result = none ∧ ∃ op var, e = .symbolicDerivative op var) ∨
    (Unbuildable result ∧ t.invertible = false ∧ ∃ f, e = .fault f)

/-- The tree is refused before anything is evaluated. -/
theorem Stuck.early {t : Tree} {result : Option Tree} {e : Error} (stuck : Stuck t result e) :
    e.isLate = false := by
  rcases stuck with ⟨-, _, _, rfl⟩ | ⟨-, -, _, rfl⟩ <;> rfl

theorem Stuck.unbuildable {t : Tree} {result : Option Tree} {e : Error}
    (stuck : Stuck t result e) : Unbuildable result := by
  rcases stuck with ⟨rfl, -⟩ | ⟨broken, -⟩
  · exact unbuildable_none
  · exact broken

/-- If a tree is stuck, so is one whose result is made from its own. -/
theorem Stuck.above {t c : Tree} {result below : Option Tree} {e : Error} (stuck : Stuck c below e)
    (part : t.invertible = true → c.invertible = true) (none : below = none → result = none)
    (broken : Unbuildable below → Unbuildable result) : Stuck t result e := by
  rcases stuck with ⟨missing, error⟩ | ⟨unbuildable, bad, error⟩
  · exact Or.inl ⟨none missing, error⟩
  · refine Or.inr ⟨broken unbuildable, ?_, error⟩
    rw [← Bool.not_eq_true] at bad ⊢
    exact mt part bad

/-- What contains a stuck tree is stuck. -/
theorem Stuck.of_child {e : Error} (t : Tree) :
    ∀ c ∈ t.children, Stuck c c.normalForm e → Stuck t t.normalForm e := by
  intro c hc stuck
  apply stuck.above (fun good => invertible_of_child good c hc)
  · exact rebuild_none (fun _ _ => rfl) t c hc
  · exact Unbuildable.of_child t c hc

/-- Pushing a derivative adds no divisor. -/
theorem Pushes.invertible {k : Nat} {t t' : Tree} (pushes : Pushes k t t')
    (invertible : t.invertible = true) : t'.invertible = true := by
  induction pushes with
  | leaf | independent | constant => rfl
  | derivative => exact invertible
  | sign _ _ ih | fromNumber _ ih | timesNumber _ ih | afterNumber _ ih => exact ih invertible
  | sum _ _ _ ihl ihr =>
    obtain ⟨left, right⟩ := Bool.and_eq_true_iff.mp invertible
    exact Bool.and_eq_true_iff.mpr ⟨ihl left, ihr right⟩
  | beforeNumber _ _ ih => exact ih (Bool.and_eq_true_iff.mp invertible).2
  | scale _ _ ih =>
    obtain ⟨divides, child⟩ := Bool.and_eq_true_iff.mp invertible
    exact Bool.and_eq_true_iff.mpr ⟨divides, ih child⟩

theorem invertible_normalForm {t t' : Tree} (normal : t.normalForm = some t')
    (invertible : t.invertible = true) : t'.invertible = true := by
  induction t generalizing t' with
  | leaf | independent | constant | slot =>
    cases normal
    exact invertible
  | derivative c k ih =>
    obtain ⟨c', child, pushed⟩ := Option.bind_eq_some_iff.mp normal
    exact (pushes_of_push pushed).invertible (ih child invertible)
  | unary op c ih | valueTree op v c ih =>
    obtain ⟨c', child, rfl⟩ := Option.map_eq_some_iff.mp normal
    have below := ih child invertible
    exact below
  | treeValue op c v ih =>
    obtain ⟨c', child, rfl⟩ := Option.map_eq_some_iff.mp normal
    obtain ⟨divides, below⟩ := Bool.and_eq_true_iff.mp invertible
    exact Bool.and_eq_true_iff.mpr ⟨divides, ih child below⟩
  | treeTree op l r ihl ihr =>
    obtain ⟨l', left, rest⟩ := Option.bind_eq_some_iff.mp normal
    obtain ⟨r', right, rfl⟩ := Option.map_eq_some_iff.mp rest
    obtain ⟨goodl, goodr⟩ := Bool.and_eq_true_iff.mp invertible
    exact Bool.and_eq_true_iff.mpr ⟨ihl left goodl, ihr right goodr⟩

/-- A tree that has a normal form is not stuck if its divisors have reciprocals. -/
theorem not_stuck {t t' : Tree} (normal : t.normalForm = some t') (good : t.invertible = true)
    (e : Error) : ¬ Stuck t t.normalForm e := by
  rintro (⟨none, -⟩ | ⟨-, bad, -⟩)
  · cases normal.symm.trans none
  · cases good.symm.trans bad

end Tree

end JetForm
