import JetForm.Proofs.Outcome
import JetForm.Tree.Postorder
import Mathlib.Logic.Relation

/-! # Post-order and reachability

    `a.Reaches h g` says that node `g` occurs in the tree below `h`.  The
    traversal with a stack lists the same handles as the recursive one, in the
    same order: `postorder_eq_depthFirst`.  From the recursion follows what
    every pass over a tree relies on:

    * the handles that are listed are those the roots reach,
    * each is listed once,
    * and all children of a node are listed before the node.

    The last fact is `ChildrenFirst`.  It makes an induction principle for
    passes: an invariant is kept from node to node, where each node has its
    `Turn` after its children. -/

namespace JetForm

namespace Arena

variable {a : Arena}

/-! ## Reachability -/

/-- Node `g` occurs in the tree below node `h`. -/
def Reaches (a : Arena) (h g : Nat) : Prop :=
  Relation.ReflTransGen (fun parent child => child ∈ a.children parent) h g

theorem Reaches.refl (a : Arena) (h : Nat) : a.Reaches h h :=
  Relation.ReflTransGen.refl

theorem Reaches.trans {h g f : Nat} (hg : a.Reaches h g) (gf : a.Reaches g f) : a.Reaches h f :=
  Relation.ReflTransGen.trans hg gf

theorem Reaches.child {h c : Nat} (hc : c ∈ a.children h) : a.Reaches h c :=
  Relation.ReflTransGen.single hc

theorem Reaches.le {h g : Nat} (hg : a.Reaches h g) : g ≤ h := by
  induction hg with
  | refl => exact Nat.le_refl h
  | tail _ hc ih => exact Nat.le_trans (Nat.le_of_lt (children_lt hc)) ih

/-- What a node reaches is the node itself, or reached by one of its children. -/
theorem reaches_iff {h g : Nat} :
    a.Reaches h g ↔ g = h ∨ ∃ c ∈ a.children h, a.Reaches c g := by
  constructor
  · intro hg
    rcases Relation.ReflTransGen.cases_head hg with rfl | ⟨c, hc, cg⟩
    · exact Or.inl rfl
    · exact Or.inr ⟨c, hc, cg⟩
  · rintro (rfl | ⟨c, hc, cg⟩)
    · exact Reaches.refl a g
    · exact (Reaches.child hc).trans cg

theorem node?_eq_none {h : Nat} : a.node? h = none ↔ a.count ≤ h := by
  simp [node?, count]

/-- Handles are accepted if there are nodes for them. -/
theorem requireNodes_eq_ok {handles : List Nat} :
    a.requireNodes handles = .ok () ↔ ∀ h ∈ handles, h < a.count := by
  unfold requireNodes
  split
  next stored => simpa [count] using stored
  next missing => simpa [count] using missing

theorem node?_isSome {h : Nat} : (∃ node, a.node? h = some node) ↔ h < a.count := by
  rw [← Option.ne_none_iff_exists', ne_eq, node?_eq_none, Nat.not_le]

theorem lt_count {h : Nat} {node : Node} (hn : a.node? h = some node) : h < a.count :=
  node?_isSome.mp ⟨node, hn⟩

theorem children_eq {h : Nat} {node : Node} (hn : a.node? h = some node) :
    a.children h = node.children := by
  simp [children, hn]

/-- Induction along the children of nodes. -/
@[elab_as_elim]
theorem node_induction {P : Nat → Prop} {h : Nat} (inside : h < a.count)
    (step : ∀ h node, a.node? h = some node → (∀ c ∈ node.children, P c) → P h) : P h := by
  induction h using Nat.strongRecOn with
  | _ h ih =>
    obtain ⟨node, hn⟩ := node?_isSome.mpr inside
    refine step h node hn fun c hc => ?_
    have lt := a.child_lt h node hn c hc
    exact ih c lt (Nat.lt_trans lt inside)

theorem Reaches.lt_count {h g : Nat} (hg : a.Reaches h g) (hh : h < a.count) : g < a.count :=
  Nat.lt_of_le_of_lt hg.le hh

/-! ## The recursive traversal -/

/-- Visit some nodes in order. -/
def visitAll (a : Arena) (hs : List Nat) (listed : List Nat) : List Nat :=
  hs.foldl (fun listed h => a.visit h listed) listed

@[simp] theorem visitAll_nil (listed : List Nat) : a.visitAll [] listed = listed := rfl

@[simp] theorem visitAll_cons (h : Nat) (hs listed : List Nat) :
    a.visitAll (h :: hs) listed = a.visitAll hs (a.visit h listed) := rfl

theorem visit_of_mem {h : Nat} {listed : List Nat} (hh : h ∈ listed) :
    a.visit h listed = listed := by
  rw [visit, if_pos hh]

theorem visit_of_not_mem {h : Nat} {listed : List Nat} (hh : h ∉ listed) :
    a.visit h listed = a.visitAll (a.children h) listed ++ [h] := by
  rw [visit, if_neg hh, visitAll]
  congr 1
  exact List.foldl_subtype (p := (· ∈ a.children h)) (g := fun listed c => a.visit c listed)
    (fun _ _ _ => rfl) |>.trans (by simp)

/-- A list of handles that holds the children of each entry further to the
    left. -/
def ChildrenFirst (a : Arena) (listed : List Nat) : Prop :=
  ∀ before h after, listed = before ++ h :: after → ∀ c ∈ a.children h, c ∈ before

theorem childrenFirst_nil : a.ChildrenFirst [] := by
  intro before h after eq
  simp at eq

theorem ChildrenFirst.concat {listed : List Nat} {h : Nat} (first : a.ChildrenFirst listed)
    (hc : ∀ c ∈ a.children h, c ∈ listed) : a.ChildrenFirst (listed ++ [h]) := by
  intro before g after eq c hg
  rcases List.eq_nil_or_concat after with rfl | ⟨after', last, rfl⟩
  · obtain ⟨rfl, same⟩ := List.append_inj' eq rfl
    obtain rfl := List.singleton_inj.mp same
    exact hc c hg
  · have eq' : listed ++ [h] = (before ++ g :: after') ++ [last] := by simpa using eq
    obtain ⟨rfl, -⟩ := List.append_inj' eq' rfl
    exact first before g after' rfl c hg

/-- With an entry, such a list holds everything that the entry reaches. -/
theorem ChildrenFirst.mem_of_reaches {listed : List Nat} (first : a.ChildrenFirst listed)
    {h g : Nat} (hh : h ∈ listed) (hg : a.Reaches h g) : g ∈ listed := by
  induction hg with
  | refl => exact hh
  | @tail p c _ hc ih =>
    obtain ⟨before, after, eq⟩ := List.append_of_mem ih
    rw [eq]
    exact List.mem_append_left _ (first before p after eq c hc)

/-- What visiting some nodes does to the list. -/
structure Visited (a : Arena) (hs listed listed' : List Nat) : Prop where
  grows : listed <+: listed'
  nodup : listed.Nodup → listed'.Nodup
  first : a.ChildrenFirst listed → a.ChildrenFirst listed'
  mem : ∀ g ∈ listed', g ∈ listed ∨ ∃ h ∈ hs, a.Reaches h g
  roots : ∀ h ∈ hs, h ∈ listed'

theorem Visited.cons {h : Nat} {hs l l' l'' : List Nat} (head : a.Visited [h] l l')
    (tail : a.Visited hs l' l'') : a.Visited (h :: hs) l l'' where
  grows := head.grows.trans tail.grows
  nodup distinct := tail.nodup (head.nodup distinct)
  first closed := tail.first (head.first closed)
  mem g hg := by
    rcases tail.mem g hg with hg | ⟨r, hr, rg⟩
    · rcases head.mem g hg with hg | ⟨r, hr, rg⟩
      · exact Or.inl hg
      · exact Or.inr ⟨r, List.mem_cons.mpr (Or.inl (List.mem_singleton.mp hr)), rg⟩
    · exact Or.inr ⟨r, List.mem_cons_of_mem h hr, rg⟩
  roots r hr := by
    rcases List.mem_cons.mp hr with rfl | hr
    · exact tail.grows.subset (head.roots r (List.mem_singleton_self r))
    · exact tail.roots r hr

theorem visitAll_visited_of {hs : List Nat}
    (each : ∀ h ∈ hs, ∀ listed, a.Visited [h] listed (a.visit h listed)) (listed : List Nat) :
    a.Visited hs listed (a.visitAll hs listed) := by
  induction hs generalizing listed with
  | nil =>
    exact ⟨List.prefix_refl _, id, id, fun g hg => Or.inl hg, by simp⟩
  | cons h hs ih =>
    exact (each h List.mem_cons_self listed).cons
      (ih (fun g hg => each g (List.mem_cons_of_mem h hg)) _)

theorem visit_visited (h : Nat) (listed : List Nat) :
    a.Visited [h] listed (a.visit h listed) := by
  induction h using Nat.strongRecOn generalizing listed with
  | _ h ih =>
    by_cases hh : h ∈ listed
    · rw [visit_of_mem hh]
      exact ⟨List.prefix_refl _, id, id, fun g hg => Or.inl hg, by simpa using hh⟩
    · rw [visit_of_not_mem hh]
      have below : a.Visited (a.children h) listed (a.visitAll (a.children h) listed) :=
        visitAll_visited_of (fun c hc => ih c (children_lt hc)) listed
      -- children come before their parents, so the node itself has not been visited
      have fresh : h ∉ a.visitAll (a.children h) listed := by
        intro mem
        rcases below.mem h mem with old | ⟨c, hc, reach⟩
        · exact hh old
        · have := children_lt hc
          have := reach.le
          omega
      refine ⟨below.grows.trans (List.prefix_append _ _), ?_, ?_, ?_, by simp⟩
      · intro distinct
        refine List.nodup_append.mpr ⟨below.nodup distinct, by simp, ?_⟩
        intro x hx y hy same
        obtain rfl := List.mem_singleton.mp hy
        exact fresh (same ▸ hx)
      · intro closed
        exact (below.first closed).concat below.roots
      · intro g hg
        rcases List.mem_append.mp hg with hg | hg
        · rcases below.mem g hg with old | ⟨c, hc, reach⟩
          · exact Or.inl old
          · exact Or.inr ⟨h, by simp, (Reaches.child hc).trans reach⟩
        · obtain rfl := List.mem_singleton.mp hg
          exact Or.inr ⟨g, by simp, Reaches.refl a g⟩

theorem visitAll_visited (hs listed : List Nat) :
    a.Visited hs listed (a.visitAll hs listed) :=
  visitAll_visited_of (fun h _ => visit_visited h) listed

theorem depthFirst_visited (roots : List Nat) : a.Visited roots [] (a.depthFirst roots) :=
  visitAll_visited roots []

/-! ## The traversal with a stack -/

/-- Nodes that are listed already can be left out of a visit. -/
theorem visitAll_filter {listed₀ : List Nat} (p : Nat → Bool) (hs listed : List Nat)
    (hp : ∀ h ∈ hs, p h = false → h ∈ listed₀) (sub : listed₀ ⊆ listed) :
    a.visitAll (hs.filter p) listed = a.visitAll hs listed := by
  induction hs generalizing listed with
  | nil => rfl
  | cons h hs ih =>
    have rest := fun g hg => hp g (List.mem_cons_of_mem h hg)
    cases hph : p h with
    | true =>
      rw [List.filter_cons_of_pos hph, visitAll_cons, visitAll_cons]
      exact ih _ rest (fun g hg => (visit_visited h listed).grows.subset (sub hg))
    | false =>
      rw [List.filter_cons_of_neg (by simp [hph]), visitAll_cons,
        visit_of_mem (sub (hp h List.mem_cons_self hph))]
      exact ih _ rest sub

/-- The marks say which nodes are listed or entered but not left. -/
structure Marked (a : Arena) (entered : List Nat) (seen : Array Bool) (out : Array Nat) : Prop where
  size : seen.size = a.count
  mark : ∀ h < a.count, seen[h]? = some (decide (h ∈ out.toList ∨ h ∈ entered))

/-- What the loop does with some nodes on top of its stack: it visits them. -/
def Enters (a : Arena) (hs : List Nat) : Prop :=
  ∀ (entered : List Nat) (seen : Array Bool) (out : Array Nat) (rest : List Visit),
    a.Marked entered seen out → (∀ h ∈ hs, h < a.count ∧ ∀ g ∈ entered, h < g) →
    ∃ seen' out', a.postorderLoop (hs.map .enter ++ rest) seen out =
        a.postorderLoop rest seen' out' ∧
      a.Marked entered seen' out' ∧ out'.toList = a.visitAll hs out.toList

theorem Enters.cons {h : Nat} {hs : List Nat} (head : a.Enters [h]) (tail : a.Enters hs) :
    a.Enters (h :: hs) := by
  intro entered seen out rest marked bound
  obtain ⟨seen₁, out₁, run₁, marked₁, out₁_eq⟩ :=
    head entered seen out (hs.map .enter ++ rest) marked (by
      intro g hg
      obtain rfl := List.mem_singleton.mp hg
      exact bound g List.mem_cons_self)
  obtain ⟨seen₂, out₂, run₂, marked₂, out₂_eq⟩ :=
    tail entered seen₁ out₁ rest marked₁ (fun g hg => bound g (List.mem_cons_of_mem h hg))
  refine ⟨seen₂, out₂, ?_, marked₂, ?_⟩
  · simpa using run₁.trans run₂
  · rw [out₂_eq, out₁_eq]
    rfl

theorem enters_nil : a.Enters [] := by
  intro entered seen out rest marked _
  exact ⟨seen, out, rfl, marked, rfl⟩

theorem enters_of {hs : List Nat} (each : ∀ h ∈ hs, a.Enters [h]) : a.Enters hs := by
  induction hs with
  | nil => exact enters_nil
  | cons h hs ih =>
    exact (each h List.mem_cons_self).cons (ih fun g hg => each g (List.mem_cons_of_mem h hg))

/-- Entering a node leads to its being left once its children are visited. -/
theorem enters_singleton (h : Nat) : a.Enters [h] := by
  induction h using Nat.strongRecOn with
  | _ h ih =>
    intro entered seen out rest marked bound
    obtain ⟨inside, smaller⟩ := bound h (List.mem_singleton_self h)
    obtain ⟨node, hn⟩ := node?_isSome.mpr inside
    have notEntered : h ∉ entered := fun mem => Nat.lt_irrefl h (smaller h mem)
    -- a node that has left before is skipped, and any other one is entered
    by_cases listed : h ∈ out.toList
    · have mark : seen[h]? = some true := by simpa [listed] using marked.mark h inside
      refine ⟨seen, out, ?_, marked, ?_⟩
      · rw [List.map_singleton, List.singleton_append, postorderLoop]
        simp [hn, mark]
      · simp [visit_of_mem listed]
    · have mark : seen[h]? = some false := by
        simpa [listed, notEntered] using marked.mark h inside
      have below : ∀ c ∈ node.children, c < h := a.child_lt h node hn
      have marked' : a.Marked (h :: entered) (seen.set! h true) out := by
        refine ⟨by simpa using marked.size, ?_⟩
        intro g hg
        rw [Array.set!_eq_setIfInBounds, Array.getElem?_setIfInBounds]
        by_cases same : h = g
        · simp [same, marked.size, hg]
        · simp [same, Ne.symm same, marked.mark g hg]
      -- the loop enters those children only that have not been marked
      let fresh := node.children.filter fun c => seen[c]? == some false
      have enter : a.Enters fresh :=
        enters_of fun c hc => ih c (below c (List.mem_filter.mp hc).1)
      obtain ⟨seen₁, out₁, run₁, marked₁, out₁_eq⟩ :=
        enter (h :: entered) (seen.set! h true) out (.leave h :: rest) marked' (by
          intro c hc
          have lt := below c (List.mem_filter.mp hc).1
          refine ⟨Nat.lt_trans lt inside, ?_⟩
          intro g hg
          rcases List.mem_cons.mp hg with rfl | hg
          · exact lt
          · exact Nat.lt_trans lt (smaller g hg))
      -- the children that are passed over have left already, so visiting them adds nothing
      have all : a.visitAll fresh out.toList = a.visitAll (a.children h) out.toList := by
        rw [children_eq hn]
        apply visitAll_filter _ _ _ _ (List.Subset.refl out.toList)
        intro c hc unmarked
        have lt := below c hc
        have cMark := marked.mark c (Nat.lt_trans lt inside)
        have cOutside : c ∉ entered := fun mem => by
          have := smaller c mem
          omega
        by_cases done : c ∈ out.toList
        · exact done
        · simp [cMark, done, cOutside] at unmarked
      refine ⟨seen₁, out₁.push h, ?_, ?_, ?_⟩
      · rw [List.map_singleton, List.singleton_append, postorderLoop]
        simp only [hn, mark, dif_pos]
        rw [run₁, postorderLoop]
      · refine ⟨marked₁.size, ?_⟩
        intro g hg
        rw [marked₁.mark g hg]
        by_cases same : g = h <;> simp [same]
      · rw [Array.toList_push, out₁_eq, all, visitAll_cons, visit_of_not_mem listed, visitAll_nil]

/-- The two traversals agree. -/
theorem postorder_eq_depthFirst {roots : List Nat} (inside : ∀ r ∈ roots, r < a.count) :
    a.postorder roots = a.depthFirst roots := by
  have loops : ∀ (rs : List Nat) (seen : Array Bool) (out : Array Nat), (∀ r ∈ rs, r < a.count) →
      a.Marked [] seen out →
      (rs.foldl (fun state root => a.postorderLoop [.enter root] state.1 state.2)
        (seen, out)).2.toList = a.visitAll rs out.toList := by
    intro rs
    induction rs with
    | nil => intro seen out _ _; rfl
    | cons r rs ih =>
      intro seen out bound marked
      obtain ⟨seen', out', run, marked', out'_eq⟩ :=
        enters_singleton r [] seen out [] marked (by simpa using bound r List.mem_cons_self)
      have step : a.postorderLoop [.enter r] seen out = (seen', out') := by
        rw [postorderLoop] at run
        simpa [postorderLoop] using run
      rw [List.foldl_cons, step, ih seen' out' (fun g hg => bound g (List.mem_cons_of_mem r hg))
        marked', out'_eq]
      rfl
  refine loops roots _ _ inside ⟨by simp, ?_⟩
  intro h hh
  simp [hh]

theorem mem_postorder {roots : List Nat} (inside : ∀ r ∈ roots, r < a.count) {g : Nat} :
    g ∈ a.postorder roots ↔ ∃ r ∈ roots, a.Reaches r g := by
  rw [postorder_eq_depthFirst inside]
  have visited := depthFirst_visited (a := a) roots
  constructor
  · intro hg
    rcases visited.mem g hg with none | reached
    · simp at none
    · exact reached
  · rintro ⟨r, hr, rg⟩
    exact (visited.first childrenFirst_nil).mem_of_reaches (visited.roots r hr) rg

theorem nodup_postorder {roots : List Nat} (inside : ∀ r ∈ roots, r < a.count) :
    (a.postorder roots).Nodup := by
  rw [postorder_eq_depthFirst inside]
  exact (depthFirst_visited roots).nodup List.nodup_nil

theorem childrenFirst_postorder {roots : List Nat} (inside : ∀ r ∈ roots, r < a.count) :
    a.ChildrenFirst (a.postorder roots) := by
  rw [postorder_eq_depthFirst inside]
  exact (depthFirst_visited roots).first childrenFirst_nil

theorem postorder_of_childless {h : Nat} {node : Node} (hn : a.node? h = some node)
    (childless : node.children = []) : a.postorder [h] = [h] := by
  have inside : ∀ r ∈ [h], r < a.count := by simpa using lt_count hn
  rw [postorder_eq_depthFirst inside]
  show a.visit h [] = [h]
  rw [visit_of_not_mem (by simp), children_eq hn, childless]
  rfl

/-! ## Passes -/

/-- What is known when a pass meets a node. -/
structure Turn (a : Arena) (roots before : List Nat) (h : Nat) (node : Node) : Prop where
  stored : a.node? h = some node
  children : ∀ c ∈ node.children, c ∈ before
  fresh : h ∉ before
  reached : ∃ r ∈ roots, a.Reaches r h

/-- A node that has its turn is below the root. -/
theorem Turn.reaches {root : Nat} {before : List Nat} {h : Nat} {node : Node}
    (turn : a.Turn [root] before h node) : a.Reaches root h := by
  obtain ⟨r, hr, reach⟩ := turn.reached
  obtain rfl := List.mem_singleton.mp hr
  exact reach

theorem turn_of_postorder {roots before after : List Nat} {h : Nat}
    (inside : ∀ r ∈ roots, r < a.count) (eq : a.postorder roots = before ++ h :: after) :
    ∃ node, a.Turn roots before h node := by
  have reached : ∃ r ∈ roots, a.Reaches r h := (mem_postorder inside).mp (by simp [eq])
  obtain ⟨r, hr, rh⟩ := reached
  obtain ⟨node, hn⟩ := node?_isSome.mpr (rh.lt_count (inside r hr))
  refine ⟨node, hn, ?_, ?_, r, hr, rh⟩
  · rw [← children_eq hn]
    exact childrenFirst_postorder inside before h after eq
  · have distinct := nodup_postorder inside
    rw [eq] at distinct
    intro mem
    exact (List.nodup_append.mp distinct).2.2 h mem h List.mem_cons_self rfl

/-- What a pass with a memory preserves. -/
theorem ends_sweepState {ε σ τ β : Type} {roots : List Nat} {b : β}
    {meet : β → Nat → Node → StateT τ (EStateM ε σ) β} {m : τ} {s : σ} {failed : ε → σ → Prop}
    (inside : ∀ r ∈ roots, r < a.count) (invariant : List Nat → β × τ → σ → Prop)
    (start : invariant [] (b, m) s)
    (step : ∀ before h node b m s, a.Turn roots before h node → invariant before (b, m) s →
      Ends (meet b h node m) s (invariant (before ++ [h])) failed) :
    Ends (a.sweepM roots b meet m) s (invariant (a.postorder roots)) failed := by
  refine Ends.foldlState invariant start ?_
  intro before h after b m s eq holds
  obtain ⟨node, turn⟩ := turn_of_postorder inside eq
  simp only [turn.stored]
  exact step before h node b m s turn holds

/-- The same for a pass without a memory. -/
theorem ends_sweep {ε σ β : Type} {roots : List Nat} {b : β}
    {meet : β → Nat → Node → EStateM ε σ β} {s : σ} {failed : ε → σ → Prop}
    (inside : ∀ r ∈ roots, r < a.count) (invariant : List Nat → β → σ → Prop)
    (start : invariant [] b s)
    (step : ∀ before h node b s, a.Turn roots before h node → invariant before b s →
      Ends (meet b h node) s (invariant (before ++ [h])) failed) :
    Ends (a.sweepM roots b meet) s (invariant (a.postorder roots)) failed := by
  apply Ends.foldlM invariant start
  intro before h after b s eq holds
  obtain ⟨node, turn⟩ := turn_of_postorder inside eq
  simp only [turn.stored]
  exact step before h node b s turn holds

/-- Passes over one tree, side by side. -/
theorem alike_sweep {ε σ τ β γ : Type} {roots : List Nat} {b : β} {c : γ}
    {meet : β → Nat → Node → EStateM ε σ β} {meet' : γ → Nat → Node → EStateM ε τ γ} {s : σ} {t : τ}
    {S : σ → τ → Prop} (inside : ∀ r ∈ roots, r < a.count)
    (invariant : List Nat → β → σ → γ → τ → Prop) (start : invariant [] b s c t)
    (step : ∀ before h node b s c t, a.Turn roots before h node → invariant before b s c t →
      RunAlike (invariant (before ++ [h])) S (meet b h node s) (meet' c h node t)) :
    RunAlike (invariant (a.postorder roots)) S (a.sweepM roots b meet s)
      (a.sweepM roots c meet' t) := by
  apply RunAlike.foldlM invariant start
  intro before h after b s c t eq holds
  obtain ⟨node, turn⟩ := turn_of_postorder inside eq
  simp only [turn.stored]
  exact step before h node b s c t turn holds

/-- A pass with a memory carries the memory along. -/
theorem sweepM_apply {ε σ τ β : Type} (roots : List Nat) (b : β)
    (meet : β → Nat → Node → StateT τ (EStateM ε σ) β) (m : τ) :
    a.sweepM roots b meet m = a.sweepM roots (b, m) fun p h node => meet p.1 h node p.2 := by
  rw [sweepM, sweepM, foldlM_apply]
  congr 1
  funext p h
  cases a.node? h <;> rfl

/-- What a pass preserves that only may fail. -/
theorem ended_sweep {ε β : Type} {roots : List Nat} {b : β}
    {meet : β → Nat → Node → Except ε β} {failed : ε → Prop}
    (inside : ∀ r ∈ roots, r < a.count) (invariant : List Nat → β → Prop)
    (start : invariant [] b)
    (step : ∀ before h node b, a.Turn roots before h node → invariant before b →
      Ended (meet b h node) (invariant (before ++ [h])) failed) :
    Ended (a.sweepM roots b meet) (invariant (a.postorder roots)) failed := by
  refine Ended.foldlM invariant start ?_
  intro before h after b eq holds
  obtain ⟨node, turn⟩ := turn_of_postorder inside eq
  simp only [turn.stored]
  exact step before h node b turn holds

end Arena

end JetForm
