import JetForm.Proofs.Tree.Traversal
import Mathlib.Logic.Function.Iterate
import Mathlib.Tactic.IntervalCases

/-! # The stack machine behind the post-order

    `Traversal.next` is one round of the traversal with a stack.  The stack may
    hold a handle more than once, and handles that have been dealt with in the
    meantime; such an entry costs one round and changes nothing.

    Three things are shown:

    * **The machine halts**: a round either shortens the stack, or it marks a
      node and puts at most three entries in the place of one.
    * **Its result is that of the loop**, and to start with all roots is to
      start with them one after the other.
    * **What it lists**: the handles the roots reach, each once, children before
      parents, in the order of the recursive traversal. -/

namespace JetForm

namespace Arena

/-- What the traversal keeps: the stack, the marks, and what is listed so far. -/
structure Traversal where
  stack : List Visit
  seen : Array Bool
  out : Array Nat

namespace Traversal

/-- One round: take an entry from the stack.  With an empty stack nothing is
    left to do. -/
def next (a : Arena) : Traversal → Traversal
  | ⟨[], seen, out⟩ => ⟨[], seen, out⟩
  | ⟨.leave h :: rest, seen, out⟩ => ⟨rest, seen, out.push h⟩
  | ⟨.enter h :: rest, seen, out⟩ =>
    match a.node? h with
    | none => ⟨rest, seen, out⟩
    | some node =>
      if seen[h]? = some false then
        let fresh := node.children.filter fun c => seen[c]? == some false
        ⟨fresh.map .enter ++ .leave h :: rest, seen.set! h true, out⟩
      else ⟨rest, seen, out⟩

/-- The traversal before its first round, with all roots on the stack. -/
def start (a : Arena) (roots : List Nat) : Traversal :=
  ⟨roots.map .enter, Array.replicate a.count false, #[]⟩

/-- An upper bound on the rounds to come. -/
def fuel (s : Traversal) : Nat :=
  4 * s.seen.count false + s.stack.length

/-- The traversal that is left when the stack is empty. -/
def halted (r : Array Bool × Array Nat) : Traversal :=
  ⟨[], r.1, r.2⟩

end Traversal

variable {a : Arena}

/-! ## Halting -/

theorem Traversal.iterate_halted (n : Nat) (r : Array Bool × Array Nat) :
    (Traversal.next a)^[n] (.halted r) = .halted r :=
  Function.iterate_fixed rfl n

/-- A node has at most two children. -/
theorem length_children_le (node : Node) : node.children.length ≤ 2 := by
  cases node with
  | leaf | independent | constant | slot | unary | derivative => simp [Node.children]
  | binary op operands => cases operands <;> simp [Node.children, Operands.trees]

/-- Marking a node costs a mark. -/
theorem count_set_mark {seen : Array Bool} {h : Nat} (unseen : seen[h]? = some false) :
    (seen.set! h true).count false + 1 = seen.count false := by
  obtain ⟨bound, mark⟩ := Array.getElem?_eq_some_iff.mp unseen
  have positive : 0 < seen.count false := Array.count_pos_iff.mpr (mark ▸ Array.getElem_mem bound)
  rw [Array.set!_eq_setIfInBounds, Array.setIfInBounds, dif_pos bound, Array.count_set bound]
  simp only [mark, beq_self_eq_true, if_true, Bool.true_eq_false, beq_iff_eq, if_false]
  omega

/-- Every round but those after the end uses up fuel. -/
theorem Traversal.fuel_next {s : Traversal} (more : s.stack ≠ []) :
    (s.next a).fuel < s.fuel := by
  obtain ⟨stack, seen, out⟩ := s
  cases stack with
  | nil => exact absurd rfl more
  | cons entry rest =>
    cases entry with
    | leave h => simp [Traversal.next, fuel]
    | enter h =>
      unfold Traversal.next
      dsimp only
      split
      · simp [fuel]
      next node hn =>
        split
        next unseen =>
          -- a mark is worth four rounds, and a node brings three entries at most
          have cost := count_set_mark unseen
          have few : (node.children.filter fun c => seen[c]? == some false).length ≤ 2 :=
            (List.length_filter_le _ _).trans (length_children_le node)
          simp only [fuel, List.length_append, List.length_map, List.length_cons]
          omega
        next => simp [fuel]

/-- A round does not change what the loop will return. -/
theorem Traversal.loop_next (s : Traversal) :
    a.postorderLoop (s.next a).stack (s.next a).seen (s.next a).out =
      a.postorderLoop s.stack s.seen s.out := by
  obtain ⟨stack, seen, out⟩ := s
  cases stack with
  | nil => rfl
  | cons entry rest =>
    cases entry with
    | leave h => exact (postorderLoop.eq_2 a seen out h rest).symm
    | enter h =>
      conv_rhs => rw [postorderLoop]
      cases hn : a.node? h with
      | none => simp only [Traversal.next, hn]
      | some node =>
        by_cases unseen : seen[h]? = some false
        · simp only [Traversal.next, hn, unseen, if_true, dif_pos]
        · simp only [Traversal.next, hn, unseen, if_false, dif_neg, not_false_eq_true]

/-- **The machine halts** within its fuel, with the result of the loop. -/
theorem Traversal.halts {n : Nat} {s : Traversal} (enough : s.fuel ≤ n) :
    (Traversal.next a)^[n] s = .halted (a.postorderLoop s.stack s.seen s.out) := by
  induction n generalizing s with
  | zero =>
    obtain ⟨stack, seen, out⟩ := s
    have empty : stack = [] := by
      simp only [fuel] at enough
      exact List.eq_nil_of_length_eq_zero (by omega)
    subst empty
    rw [postorderLoop]
    rfl
  | succ n ih =>
    rw [Function.iterate_succ_apply]
    by_cases more : s.stack = []
    · obtain ⟨stack, seen, out⟩ := s
      subst more
      rw [postorderLoop]
      exact iterate_halted n (seen, out)
    · have less := fuel_next (a := a) more
      rw [ih (by omega), loop_next]

/-! ## One stack for all roots -/

/-- A stack is worked off from the top, whatever lies below. -/
theorem postorderLoop_append (top rest : List Visit) (seen : Array Bool) (out : Array Nat) :
    a.postorderLoop (top ++ rest) seen out =
      a.postorderLoop rest (a.postorderLoop top seen out).1 (a.postorderLoop top seen out).2 := by
  fun_induction postorderLoop a top seen out with
  | case1 seen out => rfl
  | case2 seen out h top ih => rw [List.cons_append, postorderLoop, ih]
  | case3 seen out h top missing ih =>
    rw [List.cons_append, postorderLoop]
    simp only [missing]
    exact ih
  | case4 seen out h top node hn unseen fresh ih =>
    rw [List.cons_append, postorderLoop]
    simp only [hn, unseen, dif_pos]
    rw [List.append_assoc] at ih
    exact ih
  | case5 seen out h top node hn seenAlready ih =>
    rw [List.cons_append, postorderLoop]
    simp only [hn, seenAlready, dif_neg, not_false_eq_true]
    exact ih

theorem foldl_postorderLoop (roots : List Nat) (seen : Array Bool) (out : Array Nat) :
    roots.foldl (fun state root => a.postorderLoop [.enter root] state.1 state.2) (seen, out) =
      a.postorderLoop (roots.map .enter) seen out := by
  induction roots generalizing seen out with
  | nil =>
    rw [List.map_nil, postorderLoop]
    rfl
  | cons r roots ih =>
    rw [List.foldl_cons, ih]
    exact (postorderLoop_append [.enter r] (roots.map .enter) seen out).symm

/-- The machine lists the post-order, in at most four rounds for each node of
    the arena and one for each root. -/
theorem start_halts (roots : List Nat) : ∃ seen,
    (Traversal.next a)^[4 * a.count + roots.length] (.start a roots) =
      ⟨[], seen, (a.postorder roots).toArray⟩ := by
  refine ⟨(a.postorderLoop (roots.map .enter) (Array.replicate a.count false) #[]).1, ?_⟩
  rw [Traversal.halts (by simp [Traversal.fuel, Traversal.start]), postorder, foldl_postorderLoop]
  rfl

/-! ## The post-order -/

/-- **The traversal with a stack halts, and it is the recursive one.**  It lists
    the handles that the roots reach, each once, and every child before each of
    its parents. -/
theorem postorder_traverses {roots : List Nat} (inside : ∀ r ∈ roots, r < a.count) :
    (∃ seen, (Traversal.next a)^[4 * a.count + roots.length] (.start a roots) =
        ⟨[], seen, (a.postorder roots).toArray⟩) ∧
      a.postorder roots = a.depthFirst roots ∧
      (∀ g, g ∈ a.postorder roots ↔ ∃ r ∈ roots, a.Reaches r g) ∧
      (a.postorder roots).Nodup ∧ a.ChildrenFirst (a.postorder roots) :=
  ⟨start_halts roots, postorder_eq_depthFirst inside, fun _ => mem_postorder inside,
    nodup_postorder inside, childrenFirst_postorder inside⟩

/-- Arena of `sin t * u + sin t`. -/
def chirp : Arena where
  size := 1
  serial := 0
  nodes := #[.leaf 0, .independent, .unary .sin 1, .binary .times (.treeTree 2 0),
    .binary .plus (.treeTree 3 2)]
  infos := #[⟨[0], 0, 1, none⟩, ⟨[0], 0, 0, none⟩, ⟨[0], 1, 0, none⟩, ⟨[0], 2, 1, none⟩,
    ⟨[0], 3, 1, none⟩]
  index := ∅
  values := #[]
  valueIndex := ∅
  child_lt := by
    intro h node hn c hc
    have inside : h < 5 := (Array.getElem?_eq_some_iff.mp hn).1
    interval_cases h <;> cases hn <;> simp [Node.children, Operands.trees] at hc <;> omega

theorem postorder_traverses_chirp : (∀ r ∈ [3, 4, 3, 2], r < chirp.count) ∧
    chirp.postorder [3, 4, 3, 2] = [1, 2, 0, 3, 4] ∧ chirp.ChildrenFirst [1, 2, 0, 3, 4] := by
  have inside : ∀ r ∈ [3, 4, 3, 2], r < chirp.count := by decide
  obtain ⟨-, recursive, -, -, first⟩ := postorder_traverses inside
  have listed : chirp.depthFirst [3, 4, 3, 2] = [1, 2, 0, 3, 4] := by cbv
  rw [recursive, listed] at first
  exact ⟨inside, recursive.trans listed, first⟩

end Arena

end JetForm
