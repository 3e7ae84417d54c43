import JetForm.Tree.Arena

/-! # Post-order traversal

    `Arena.postorder` lists the nodes reachable from some roots, each once,
    children before parents and left before right.  It keeps its own stack, so
    the depth of a tree is no obstacle.  `Arena.depthFirst` is the recursive
    traversal that visits the children of a node and then emits it.

    Every pass over trees is a `sweep` along the post-order: when a node is
    met, its children have been dealt with. -/

namespace JetForm

namespace Arena

/-! ## With an explicit stack -/

/-- An entry of the traversal stack: a node to enter, or one whose children are
    finished. -/
inductive Visit where
  | enter (h : Nat)
  | leave (h : Nat)

/-- Entering a node that has not been seen removes one `false` from the marks
    and puts at most three entries on the stack in place of one. -/
def postorderLoop (a : Arena) (stack : List Visit) (seen : Array Bool) (out : Array Nat) :
    Array Bool × Array Nat :=
  match stack with
  | [] => (seen, out)
  | .leave h :: rest => a.postorderLoop rest seen (out.push h)
  | .enter h :: rest =>
    match a.node? h with
    | none => a.postorderLoop rest seen out
    | some node =>
      if _unseen : seen[h]? = some false then
        let fresh := node.children.filter fun c => seen[c]? == some false
        a.postorderLoop (fresh.map Visit.enter ++ .leave h :: rest) (seen.set! h true) out
      else a.postorderLoop rest seen out
termination_by 4 * seen.count false + stack.length
decreasing_by
  · simp
  · simp
  · obtain ⟨bound, mark⟩ := Array.getElem?_eq_some_iff.mp _unseen
    have few : (node.children.filter fun c => seen[c]? == some false).length ≤ 2 := by
      refine Nat.le_trans (List.length_filter_le _ _) ?_
      cases node <;> simp [Node.children]
      next op operands => cases operands <;> simp [Operands.trees]
    have positive : 0 < seen.count false :=
      Array.count_pos_iff.mpr (mark ▸ Array.getElem_mem bound)
    have fewer : (seen.set! h true).count false = seen.count false - 1 := by
      rw [Array.set!_eq_setIfInBounds, Array.setIfInBounds, dif_pos bound,
        Array.count_set bound]
      simp [mark]
    simp only [List.length_append, List.length_map, List.length_cons, fewer]
    omega
  · simp

/-- The handles reachable from the roots, each once, children first. -/
def postorder (a : Arena) (roots : List Nat) : List Nat :=
  let start := (Array.replicate a.count false, (#[] : Array Nat))
  (roots.foldl (fun state root => a.postorderLoop [.enter root] state.1 state.2) start).2.toList

/-! ## By recursion -/

/-- Visit a node: its children from left to right, then the node itself.  What
    is listed already is passed over. -/
def visit (a : Arena) (h : Nat) (listed : List Nat) : List Nat :=
  if h ∈ listed then listed
  else
    (a.children h).attach.foldl (fun listed c => a.visit c.1 listed) listed ++ [h]
termination_by h
decreasing_by exact children_lt c.2

/-- Depth-first traversal of all roots in order. -/
def depthFirst (a : Arena) (roots : List Nat) : List Nat :=
  roots.foldl (fun listed root => a.visit root listed) []

/-! ## Sweeps -/

/-- Meet every reachable node once, children first. -/
def sweep {σ : Type} (a : Arena) (roots : List Nat) (start : σ) (meet : σ → Nat → Node → σ) : σ :=
  (a.postorder roots).foldl (fun s h =>
    match a.node? h with
    | some node => meet s h node
    | none => s) start

/-- A sweep that may fail or change a state. -/
def sweepM {m : Type → Type} [Monad m] {σ : Type} (a : Arena) (roots : List Nat) (start : σ)
    (meet : σ → Nat → Node → m σ) : m σ :=
  (a.postorder roots).foldlM (fun s h =>
    match a.node? h with
    | some node => meet s h node
    | none => pure s) start

end Arena

end JetForm
