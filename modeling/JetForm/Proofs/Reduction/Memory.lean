import JetForm.Proofs.Reduction.Conditions
import JetForm.Proofs.Reduction.StateForm
import JetForm.Proofs.Tree.Copies

/-! # The memory of earlier substitutions

    The equations and conditions of a problem share one memory of substitutions, while their arena
    keeps growing.  A call with such a memory passes over the nodes that are in it.  The call
    without a memory records them again, and finds them stored.  So both calls go on with the same
    nodes under the same handles (`Abreast`), one node after the other, and both return the same
    handle in the end.

    A call that is refused leaves in the memory what it has substituted before.  `attempt` is the
    pass with a memory that survives a failure, and `Carried` is what any calls can leave.
    `root_replaces_jets` says what a call with such a memory returns. -/

namespace JetForm

universe u

namespace Arena

variable {a b b' c c' : Arena}

/-! ## Adding a node to equal arenas -/

/-- Two arenas hold the same expressions under the same handles. -/
structure Matches (b c : Arena) : Prop where
  count : b.count = c.count
  expression : ∀ g < b.count, b.expression g = c.expression g

/-- The arena has grown by node `q` at most. -/
structure Adds (a : Arena) (q : Nat) (b : Arena) : Prop where
  wellFormed : b.WellFormed
  grown : a.Extends b
  inside : q < b.count
  one : ∀ g < b.count, g < a.count ∨ g = q

theorem Matches.refl (a : Arena) : a.Matches a :=
  ⟨rfl, fun _ _ => rfl⟩

/-- Either node `q` has been there before, or it is the last one. -/
theorem Adds.count {q : Nat} (adds : a.Adds q b) :
    q < a.count ∧ b.count = a.count ∨ q = a.count ∧ b.count = a.count + 1 := by
  by_cases old : q < a.count
  · refine Or.inl ⟨old, ?_⟩
    have nodes : b.nodes = a.nodes := adds.grown.nodes_eq fun g hg =>
      (adds.one g hg).elim id fun same => same ▸ old
    exact congrArg Array.size nodes
  · have := adds.inside
    -- the node behind the old ones can only be `q`, and so can the last node
    have first := adds.one a.count (by omega)
    have last := adds.one (b.count - 1) (by omega)
    omega

/-- A node that was there before is the one that is returned for its expression. -/
theorem Adds.eq_of_stored {q g : Nat} (adds : a.Adds q b) (wf : a.WellFormed) (stored : g < a.count)
    (same : b.expression q = a.expression g) : q = g := by
  apply expression_injective adds.wellFormed adds.inside (adds.grown.lt_count stored)
  rw [same, adds.grown.expression wf stored]

/-- Arenas that match get the same handle for the same expression, and still match. -/
theorem Matches.adds (both : b.Matches c) (wf : b.WellFormed) (wf' : c.WellFormed) {q q' : Nat}
    (adds : b.Adds q b') (adds' : c.Adds q' c') (same : b'.expression q = c'.expression q') :
    q = q' ∧ b'.Matches c' := by
  have old : ∀ g < b.count, b'.expression g = c'.expression g := by
    intro g hg
    rw [adds.grown.expression wf hg, both.expression g hg,
      adds'.grown.expression wf' (both.count ▸ hg)]
  -- what one of them has stored before, the other one has stored under the same handle
  have first : q < b.count → q' = q := by
    intro hq
    have hc : q < c.count := both.count ▸ hq
    apply adds'.eq_of_stored wf' hc
    rw [← same, old q hq, adds'.grown.expression wf' hc]
  have second : q' < b.count → q = q' := by
    intro hq
    apply adds.eq_of_stored wf hq
    rw [same, ← old q' hq, adds.grown.expression wf hq]
  have count := both.count
  have added := adds.count
  have added' := adds'.count
  have handle : q = q' := by omega
  refine ⟨handle, by omega, fun g hg => ?_⟩
  by_cases before : g < b.count
  · exact old g before
  · have last : g = q := by omega
    rw [last, same, handle]

end Arena

namespace Substitute

open Normalize (Settled)

variable {r : Registry} {slots : SlotTable} {a b c : Arena} {memo m : Memo} {h : Nat} {node : Node}

/-! ## One node -/

/-- What is built for a node, its children being done. -/
def replace (a : Arena) (r : Registry) (slots : SlotTable) (memo : Memo) (h : Nat) (node : Node) :
    Building Nat :=
  match node with
  | .leaf var => stateEntry slots var 0
  | .derivative child order => derivative r slots (a.node? child) order
  | node => Arena.copyNode (fun c => memo[c]?.getD c) h node

theorem meet_of_mem (known : h ∈ memo) (b : Arena) :
    meet a r slots h node memo b = .ok ((), memo) b := by
  have known : memo.contains h := Std.HashMap.mem_iff_contains.mp known
  show (if memo.contains h then _ else _ : Substituting Unit) memo b = _
  rw [if_pos known]
  rfl

theorem meet_of_not_mem (unknown : h ∉ memo) (b : Arena) : meet a r slots h node memo b =
    ((fun q => ((), memo.insert h q)) <$> replace a r slots memo h node) b := by
  have unknown : ¬ memo.contains h := fun known => unknown (Std.HashMap.mem_iff_contains.mpr known)
  have record : ∀ x : Building Nat,
      (do let q ← liftM x; modify (·.insert h q) : Substituting Unit) memo b =
        ((fun q => ((), memo.insert h q)) <$> x) b := by
    intro x
    show EStateM.bind (EStateM.bind x fun q => pure (q, memo)) _ b = EStateM.map _ x b
    simp only [EStateM.bind, EStateM.map]
    cases x b <;> rfl
  show (if memo.contains h then _ else _ : Substituting Unit) memo b = _
  rw [if_neg unknown]
  cases node <;> exact record _

/-- What holds of the constructors and of failures, also behind a computation without a state,
    holds of what is built for a node. -/
theorem replace_induction {P : Building Nat → Prop} (pure : ∀ q, P (Pure.pure q))
    (throw : ∀ e, P (MonadExcept.throw e)) (construct : ∀ node, P (Arena.construct node))
    (check : ∀ {α : Type} (x : Except Error α) (f : α → Building Nat), (∀ v, P (f v)) →
      P (MonadExcept.ofExcept x >>= f))
    (a : Arena) (memo : Memo) (h : Nat) (node : Node) : P (replace a r slots memo h node) := by
  have entry : ∀ var order, P (stateEntry slots var order) := fun var order =>
    check _ _ fun s => construct (.slot s var order)
  cases node with
  | leaf var => exact entry var 0
  | derivative child order =>
    show P (derivative r slots (a.node? child) order)
    unfold derivative
    split
    · apply check
      intro n
      show P (if n ≤ (order : Int) then _ else _)
      split
      · exact throw _
      · exact entry _ order
    · exact throw _
  | independent | constant | slot => exact pure h
  | unary op c => exact construct (.unary op _)
  | binary op operands => exact construct (.binary op _)

theorem replace_grows (a : Arena) (memo : Memo) (h : Nat) (node : Node) :
    Arena.Grows (replace a r slots memo h node) :=
  replace_induction .pure .throw Arena.construct_grows (fun x _ => .bind (.ofExcept x)) a memo h node

/-- At most one node is stored, and then it is what is remembered. -/
theorem replace_one (a : Arena) (memo : Memo) (h : Nat) (node : Node) :
    Arena.StoresOne (replace a r slots memo h node) :=
  replace_induction .pure .throw Arena.construct_one (fun x _ => .bind (.ofExcept x)) a memo h node

/-- Meeting a node adds to the arena, however it ends. -/
theorem meet_grows (a : Arena) (memo : Memo) (h : Nat) (node : Node) :
    Arena.Grows (meet a r slots h node memo) := by
  intro b wf
  by_cases met : h ∈ memo
  · exact Ends.of_run (meet_of_mem met b) ⟨wf, .refl b⟩
  · rw [Ends, meet_of_not_mem met]
    exact Arena.Grows.map _ (replace_grows a memo h node) b wf

/-- Meeting a node remembers node `q` for it, which may be the only new one. -/
structure Meets (h : Nat) (memo : Memo) (b : Arena) (q : Nat) (memo' : Memo) (b' : Arena) : Prop where
  adds : b.Adds q b'
  found : memo'[h]? = some q
  others : ∀ g, g ≠ h → memo'[g]? = memo[g]?

theorem meet_meets {before roots : List Nat} (turn : a.Turn roots before h node)
    (swept : Arena.Swept (Tree.substitute r slots) a before memo b) :
    Ends (meet a r slots h node memo) b
      (fun p b' => Arena.Swept (Tree.substitute r slots) a (before ++ [h]) p.2 b' ∧
        ∃ q, Meets h memo b q p.2 b') fun _ _ => True := by
  have wf := swept.wellFormed
  by_cases met : h ∈ memo
  · have found := Std.HashMap.getElem?_eq_some_getElem met
    have inside := (swept.remembers h _ found).2.1
    exact Ends.of_run (meet_of_mem met b) ⟨swept.skip met, memo[h],
      ⟨wf, .refl b, inside, fun _ => Or.inl⟩, found, fun _ _ => rfl⟩
  · have recorded : Ends (meet a r slots h node memo) b
        (fun p b' => ∃ q, p.2 = memo.insert h q ∧ ∀ g < b'.count, g < b.count ∨ g = q)
        fun _ _ => True := by
      rw [Ends, meet_of_not_mem met]
      apply Ends.map
      apply (replace_one a memo h node b).mono
      · exact fun q _ one => ⟨q, rfl, one⟩
      · exact fun _ _ _ => trivial
    apply (((meet_ends turn swept).and (meet_grows a memo h node b wf)).and recorded).mono
    · rintro p b' ⟨⟨swept', wf', grown⟩, q, eq, one⟩
      have found : p.2[h]? = some q := by rw [eq, Std.HashMap.getElem?_insert_self]
      have inside := (swept'.remembers h q found).2.1
      refine ⟨swept', q, ⟨wf', grown, inside, one⟩, found, fun g other => ?_⟩
      rw [eq, Std.HashMap.getElem?_insert, if_neg (by simpa using other.symm)]
    · exact fun _ _ _ => trivial

/-! ## One slot table -/

/-- Whatever another registry does not refuse has a slot, so it is not refused by the registry that
    the slots are from. -/
theorem derivative_of_registry (r' : Registry) (child : Option Node) (order : Nat) (b : Arena) :
    Ends (derivative r' r.slots child order) b
      (fun q b' => derivative r r.slots child order b = .ok q b') fun _ _ => True := by
  unfold derivative
  split
  next var =>
    apply Ends.bind
    apply Ends.ofExcept
    apply Ended.intro _ fun _ _ => trivial
    intro n' _
    show Ends (if n' ≤ (order : Int) then _ else _) _ _ _
    split
    next => exact Ends.throw trivial
    next =>
      apply Ends.intro _ fun _ _ _ => trivial
      intro q b' run
      cases entry : r.slots.slot? var order with
      | none =>
        rw [stateEntry, SlotTable.slot, entry] at run
        cases run
      | some s =>
        obtain ⟨n, known, below, -⟩ := Registry.exists_of_slot? entry
        rw [Registry.order, known]
        show (if n ≤ (order : Int) then _ else _ : Building Nat) b = _
        rw [if_neg (by omega)]
        exact run
  next => exact Ends.throw trivial

/-- So a call with another registry does the same to a node, unless it refuses it. -/
theorem meet_of_registry (r' : Registry) (a : Arena) (memo : Memo) (h : Nat) (node : Node)
    (b : Arena) : Ends (meet a r' r.slots h node memo) b
      (fun p b' => meet a r r.slots h node memo b = .ok p b') fun _ _ => True := by
  by_cases met : h ∈ memo
  · exact Ends.of_run (meet_of_mem met b) (meet_of_mem met b)
  · rw [Ends, meet_of_not_mem met, meet_of_not_mem met]
    apply Ends.map
    have same : Ends (replace a r' r.slots memo h node) b
        (fun q b' => replace a r r.slots memo h node b = .ok q b') fun _ _ => True := by
      cases node with
      | derivative c k => exact derivative_of_registry r' (a.node? c) k b
      | leaf | independent | constant | slot | unary | binary =>
        exact Ends.intro (fun _ _ => id) fun _ _ _ => trivial
    exact same.weaken fun q b' run => run_map run

/-! ## A memory that survives -/

/-- A step with a memory that survives a failure of the step. -/
def keeping {α : Type} (x : Substituting α) : EStateM Error (Memo × Arena) α := fun s =>
  match x s.1 s.2 with
  | .ok p b => .ok p.1 (p.2, b)
  | .error e b => .error e (s.1, b)

theorem keeping_ends {α : Type} {x : Substituting α} {s : Memo × Arena}
    {done : α → Memo × Arena → Prop} {failed : Error → Memo × Arena → Prop}
    (h : Ends (x s.1) s.2 (fun p b => done p.1 (p.2, b)) fun e b => failed e (s.1, b)) :
    Ends (keeping x) s done failed := by
  rw [Ends] at h
  rw [Ends, keeping]
  cases run : x s.1 s.2 with
  | ok p b =>
    rw [run] at h
    exact h
  | error e b =>
    rw [run] at h
    exact h

/-- Substituting in a tree with a memory that is shared, so that what has been substituted before a
    failure stays in it. -/
def attempt (r : Registry) (slots : SlotTable) (h : Nat) : EStateM Error (Memo × Arena) Nat := do
  let a := (← get).2
  a.sweepM [h] () fun _ h node => keeping (meet a r slots h node)
  return (← get).1[h]?.getD h

theorem root_eq : root r slots h m a =
    (a.sweepM [h] ((), m) (fun p h node => meet a r slots h node p.2) >>= fun p =>
      pure (p.2[h]?.getD h, p.2)) a := by
  show (a.sweepM [h] () (fun _ h node => meet a r slots h node) m >>= fun p =>
    pure (p.2[h]?.getD h, p.2)) a = _
  rw [Arena.sweepM_apply]

/-- The pass is this one, except that a failure takes the memory with it. -/
theorem root_attempt (inside : h < a.count) :
    RunAlike (fun p b q s => q = p.1 ∧ s = (p.2, b)) (fun b s => s.2 = b)
      (root r slots h m a) (attempt r slots h (m, a)) := by
  rw [root_eq]
  show RunAlike _ _ _ ((a.sweepM [h] () (fun _ h node => keeping (meet a r slots h node)) >>=
    fun _ => do return (← get).1[h]?.getD h) (m, a))
  have below : ∀ g ∈ [h], g < a.count := by simpa using inside
  apply (Arena.alike_sweep below (fun _ p b _ s => s = (p.2, b)) rfl ?_).bind
  · rintro ⟨_, memo⟩ b _ s rfl
    exact .ok ⟨rfl, rfl⟩
  · rintro _ g node ⟨_, memo⟩ b _ s - rfl
    rw [keeping]
    cases meet a r slots g node memo b with
    | ok p b => exact .ok rfl
    | error e b => exact .error e rfl

/-- What a call leaves, however it ends. -/
def left (r : Registry) (slots : SlotTable) (m : Memo) (a : Arena) (h : Nat) : Memo × Arena :=
  match attempt r slots h (m, a) with
  | .ok _ s => s
  | .error _ s => s

/-- The memories that earlier calls with a slot table can have left, and the arenas after them.
    Between the calls the arena may grow in any way. -/
inductive Carried (slots : SlotTable) : Memo → Arena → Prop
  | fresh {a : Arena} (wf : a.WellFormed) : Carried slots ∅ a
  | grow {m : Memo} {a b : Arena} (carried : Carried slots m a) (wf : b.WellFormed)
    (grown : a.Extends b) : Carried slots m b
  | call {m : Memo} {a : Arena} {h : Nat} (r : Registry) (carried : Carried slots m a)
    (inside : h < a.count) : Carried slots (left r slots m a h).1 (left r slots m a h).2

/-- A call of the pass is such a call: the memory that it returns has been carried along. -/
theorem Carried.after_root (carried : Carried slots m a) (inside : h < a.count) :
    Ends (root r slots h m) a (fun p b => Carried slots p.2 b)
      fun _ b => b = (left r slots m a h).2 := by
  have alike : RunAlike _ _ (root r slots h m a) (attempt r slots h (m, a)) := root_attempt inside
  have called := carried.call r inside
  rw [left] at called ⊢
  generalize attempt r slots h (m, a) = second at alike called ⊢
  apply Ends.intro
  · intro p b run
    rw [run] at alike
    cases alike with
    | ok related =>
      obtain ⟨-, rfl⟩ := related
      exact called
  · intro e b run
    rw [run] at alike
    cases alike with
    | error _ related => exact related.symm

/-- A call adds to the arena, and leaves right entries, also where it fails. -/
theorem left_remembers (r' : Registry) (wf : a.WellFormed) (inside : h < a.count)
    (known : Arena.Remembers (Tree.substitute r r.slots) m a) :
    (left r' r.slots m a h).2.WellFormed ∧ a.Extends (left r' r.slots m a h).2 ∧
      Arena.Remembers (Tree.substitute r r.slots) (left r' r.slots m a h).1
        (left r' r.slots m a h).2 := by
  have below : ∀ g ∈ [h], g < a.count := by simpa using inside
  have start : Arena.Swept (Tree.substitute r r.slots) a [] m a :=
    ⟨wf, Arena.Extends.refl a, known, by simp⟩
  have ends : Ends (attempt r' r.slots h) (m, a)
      (fun _ s => s.2.WellFormed ∧ a.Extends s.2 ∧
        Arena.Remembers (Tree.substitute r r.slots) s.1 s.2)
      fun _ s => s.2.WellFormed ∧ a.Extends s.2 ∧
        Arena.Remembers (Tree.substitute r r.slots) s.1 s.2 := by
    unfold attempt
    apply Ends.bind
    apply Ends.get
    apply Ends.bind
    apply (Arena.ends_sweep below
      (fun before _ s => Arena.Swept (Tree.substitute r r.slots) a before s.1 s.2) start ?_).weaken
    · intro _ s swept
      exact Ends.bind (Ends.get (Ends.pure ⟨swept.wellFormed, swept.grown, swept.remembers⟩))
    · rintro before g node _ ⟨memo, b⟩ turn swept
      apply keeping_ends
      apply ((meet_of_registry r' a memo g node b).and
        (meet_grows a memo g node b swept.wellFormed)).mono
      · exact fun p b' known => (meet_ends turn swept).of_ok known.1
      · rintro _ b' ⟨-, wf', grown⟩
        exact ⟨wf', swept.grown.trans grown, swept.remembers.grow swept.wellFormed grown⟩
  rw [left]
  -- whether the attempt succeeds or fails, the pair it leaves behind is the same kind of memory
  cases run : attempt r' r.slots h (m, a) with
  | ok p s => exact ends.of_ok run
  | error e s => exact ends.of_error run

/-- The entries of a memory that has been carried along are right. -/
theorem Carried.remembers (carried : Carried r.slots m a) :
    a.WellFormed ∧ Arena.Remembers (Tree.substitute r r.slots) m a := by
  induction carried with
  | fresh wf => exact ⟨wf, Arena.remembers_empty⟩
  | grow _ wf grown ih => exact ⟨wf, ih.2.grow ih.1 grown⟩
  | call r' _ inside ih =>
    obtain ⟨wf, -, known⟩ := left_remembers r' ih.1 inside ih.2
    exact ⟨wf, known⟩

/-! ## Side by side -/

/-- Two passes with memories of their own, after the same nodes of arena `a`.  One of them may know
    nodes ahead that the other has to record again. -/
structure Abreast (r : Registry) (a : Arena) (before : List Nat) (memo : Memo) (b : Arena)
    (memo' : Memo) (c : Arena) : Prop where
  first : Arena.Swept (Tree.substitute r r.slots) a before memo b
  second : Arena.Swept (Tree.substitute r r.slots) a before memo' c
  agree : ∀ g ∈ before, memo[g]? = memo'[g]?
  same : b.Matches c

/-- Below a settled root the tree alone decides what becomes of a node. -/
theorem meet_settled (wf : a.WellFormed) (covers : r.Covers a.size) {root : Nat}
    (settled : Settled a root) {before : List Nat} (turn : a.Turn [root] before h node)
    (swept : Arena.Swept (Tree.substitute r r.slots) a before memo b) :
    Ends (meet a r r.slots h node memo) b
      (fun p b' => Arena.Swept (Tree.substitute r r.slots) a (before ++ [h]) p.2 b' ∧
        ∃ q, Meets h memo b q p.2 b' ∧
          (a.expression h).substitute r r.slots = some (b'.expression q))
      fun e _ => Refused a r node e ∧ (a.expression h).substitute r r.slots = none := by
  apply ((meet_meets turn swept).and (meet_refused wf turn swept)).mono
  · rintro p b' ⟨⟨swept', q, meets⟩, -⟩
    obtain ⟨_, found, -, substituted⟩ :=
      swept'.known (List.mem_append_right before List.mem_cons_self)
    obtain rfl := Option.some.inj (found.symm.trans meets.found)
    rw [swept'.grown.expression wf (Arena.lt_count turn.stored)] at substituted
    exact ⟨swept', _, meets, substituted⟩
  · rintro e _ ⟨-, refused⟩
    refine ⟨refused, ?_⟩
    obtain ⟨c, var, k, n, rfl, unknown, known, above, -⟩ :=
      refused.highest_of_settled wf covers settled turn.reaches turn.stored
    exact Exceeds.substitute ⟨h, c, n, .refl a h, turn.stored, unknown, known, above⟩

/-- One step of both: they remember the same node, or are refused alike. -/
theorem meet_abreast (wf : a.WellFormed) (covers : r.Covers a.size) {root : Nat}
    (settled : Settled a root) {before : List Nat} (turn : a.Turn [root] before h node)
    {memo' : Memo} (abreast : Abreast r a before memo b memo' c) :
    RunAlike (fun p b' p' c' => Abreast r a (before ++ [h]) p.2 b' p'.2 c') (fun _ _ => True)
      (meet a r r.slots h node memo b) (meet a r r.slots h node memo' c) := by
  have second := meet_settled wf covers settled turn abreast.second
  apply RunAlike.of_ends
  apply (meet_settled wf covers settled turn abreast.first).mono
  · rintro p b' ⟨swept, q, meets, substituted⟩
    apply second.mono
    · rintro p' c' ⟨swept', q', meets', substituted'⟩
      -- both results have the same expression, so they have the same handle
      obtain ⟨handle, same⟩ := abreast.same.adds abreast.first.wellFormed abreast.second.wellFormed
        meets.adds meets'.adds (Option.some.inj (substituted.symm.trans substituted'))
      refine ⟨swept, swept', ?_, same⟩
      intro g hg
      by_cases last : g = h
      · rw [last, meets.found, meets'.found, handle]
      · have earlier : g ∈ before := by simpa [last] using hg
        rw [meets.others g last, meets'.others g last, abreast.agree g earlier]
    · rintro e _ ⟨-, none⟩
      rw [none] at substituted
      cases substituted
  · rintro e _ ⟨refused, none⟩
    apply second.mono
    · rintro p' c' ⟨-, q', -, substituted⟩
      rw [none] at substituted
      cases substituted
    · rintro e' _ ⟨refused', -⟩
      exact ⟨refused'.unique refused wf covers settled turn.reaches turn.stored, trivial⟩

/-- With right entries in the memory, whichever they are, the pass returns the same handle, or is
    refused with the same error. -/
theorem root_alike (wf : a.WellFormed) (covers : r.Covers a.size) (settled : Settled a h)
    {m' : Memo} (known : Arena.Remembers (Tree.substitute r r.slots) m a)
    (known' : Arena.Remembers (Tree.substitute r r.slots) m' a) :
    RunAlike (fun p b p' c => p.1 = p'.1 ∧ b.Matches c) (fun _ _ => True)
      (root r r.slots h m a) (root r r.slots h m' a) := by
  have below : ∀ g ∈ [h], g < a.count := by simpa using settled.inside
  have start : ∀ {memo}, Arena.Remembers (Tree.substitute r r.slots) memo a →
      Arena.Swept (Tree.substitute r r.slots) a [] memo a :=
    fun known => ⟨wf, Arena.Extends.refl a, known, by simp⟩
  rw [root_eq, root_eq]
  apply (Arena.alike_sweep below
    (fun before p b p' c => Abreast r a before p.2 b p'.2 c)
    ⟨start known, start known', by simp, .refl a⟩ ?_).bind
  · rintro ⟨_, memo⟩ b ⟨_, memo'⟩ c abreast
    have listed : h ∈ a.postorder [h] :=
      (Arena.mem_postorder below).mpr ⟨h, by simp, Arena.Reaches.refl a h⟩
    refine .ok ⟨?_, abreast.same⟩
    dsimp only
    rw [abreast.agree h listed]
  · rintro before g node ⟨_, memo⟩ b ⟨_, memo'⟩ c turn abreast
    exact meet_abreast wf covers settled turn abreast

/-- **Substitution puts the state in the place of jets.**  In a settled tree, such as normalising
    returns (`Arena.normalize_settled_ends`), it is refused exactly if the tree has a derivative that
    is not below the order of its unknown.  Otherwise it returns the state form of the tree.  It does
    not matter which calls have been made before: with the memory that they have left the result is
    the one without a memory, with the same handle. -/
theorem root_replaces_jets (positive : ∀ n ∈ r.orders, 1 ≤ n) (size : a.size ≤ r.size)
    (carried : Carried r.slots m a) (settled : Settled a h) :
    ((∃ e b, root r r.slots h m a = .error e b ∧ e.kind = .inseparable) ↔
      ∃ var k, Exceeds r a h var k) ∧
    Ends (root r r.slots h m) a
      (fun p b => StateForm.{u} r a h b p.1 ∧
        ∃ p' c, root r r.slots h ∅ a = .ok p' c ∧ p'.1 = p.1)
      fun e _ => (∃ var k, Exceeds r a h var k ∧ e = .highestOutside k var) ∧
        ∃ c, root r r.slots h ∅ a = .error e c := by
  obtain ⟨wf, known⟩ := carried.remembers
  have covers := covers_of_orders positive size
  have ends := root_stateForm.{u} wf covers settled known
  -- a call with the remembered memo and one with none answer alike
  have alike := root_alike wf covers settled known Arena.remembers_empty
  generalize fresh : root r r.slots h ∅ a = second at alike ⊢
  constructor
  · constructor
    · rintro ⟨e, b, run, -⟩
      obtain ⟨var, k, exceeds, -⟩ := ends.of_error run
      exact ⟨var, k, exceeds⟩
    · rintro ⟨var, k, exceeds⟩
      cases run : root r r.slots h m a with
      | ok p b => exact absurd exceeds ((ends.of_ok run).1 var k)
      | error e b =>
        obtain ⟨_, _, -, rfl⟩ := ends.of_error run
        exact ⟨_, b, rfl, rfl⟩
  · refine Ends.intro ?_ ?_
    · intro p b run
      rw [run] at alike
      cases alike with
      | ok related => exact ⟨(ends.of_ok run).2, _, _, rfl, related.1.symm⟩
    · intro e b run
      rw [run] at alike
      cases alike with
      | error => exact ⟨ends.of_error run, _, rfl⟩

/-- What can be recorded again is settled if all its derivatives are ones of unknowns. -/
theorem settled_of_renewable (renewable : a.Renewable) (inside : h < a.count)
    (plain : (a.expression h).OnUnknowns) : Settled a h :=
  ⟨inside, plain, fun g _ _ _ stored => renewable.quotable g _ stored⟩

/-- The sum `u + u'`, its product with `u''` and its sine, with the handles 2, 4 and 5. -/
def oscillation : Arena :=
  [.node (.leaf 0), .node (.derivative 0 (.int 1)),
    .node (.binary "plus" (some (.treeTree 0 1))), .node (.derivative 0 (.int 2)),
    .node (.binary "times" (some (.treeTree 2 3))), .node (.unary "sin" 2)].foldl
    Arena.after (Arena.empty 1)

/-- What the product leaves, which is refused for `u''`. -/
def refusedProduct : Memo × Arena :=
  left Conditions.curved Conditions.curved.slots ∅ oscillation 4

/-- The product has left the sum in the memory, so the sine is built on the entry that is there. -/
theorem root_replaces_jets_sine :
    Carried Conditions.curved.slots refusedProduct.1 refusedProduct.2 ∧
      refusedProduct.1[2]? = some 8 ∧ Settled refusedProduct.2 4 ∧ Settled refusedProduct.2 5 ∧
      (∃ e b, root Conditions.curved Conditions.curved.slots 4 refusedProduct.1 refusedProduct.2 =
        .error e b ∧ e.kind = .inseparable) ∧
      ∃ p b p' c, root Conditions.curved Conditions.curved.slots 5 refusedProduct.1
          refusedProduct.2 = .ok p b ∧
        StateForm.{0} Conditions.curved refusedProduct.2 5 b p.1 ∧
        root Conditions.curved Conditions.curved.slots 5 ∅ refusedProduct.2 = .ok p' c ∧
        p'.1 = p.1 := by
  have renewable : oscillation.Renewable :=
    (Arena.Later.foldl (Arena.empty 1) _).renewable (Arena.renewable_empty 1 0)
  have count : oscillation.count = 6 := by cbv
  have inside : 4 < oscillation.count := by omega
  have wf := renewable.wellFormed
  have carried : Carried Conditions.curved.slots refusedProduct.1 refusedProduct.2 :=
    .call Conditions.curved (.fresh wf) inside
  obtain ⟨-, grown, -⟩ : refusedProduct.2.WellFormed ∧ oscillation.Extends refusedProduct.2 ∧ _ :=
    left_remembers _ wf inside Arena.remembers_empty
  -- the failed call pushed nodes, and what it found settled before it is still settled after
  have settled : ∀ h < oscillation.count, (oscillation.expression h).isNormal = true →
      Settled refusedProduct.2 h := fun h inside normal =>
    (settled_of_renewable renewable inside (Tree.onUnknowns_of_isNormal normal)).grow wf grown
  have product : Settled refusedProduct.2 4 := settled 4 inside (by cbv)
  have sine : Settled refusedProduct.2 5 := settled 5 (by omega) (by cbv)
  have positive : ∀ n ∈ Conditions.curved.orders, 1 ≤ n := by decide
  have size : refusedProduct.2.size ≤ Conditions.curved.size := by
    have one : oscillation.size = 1 := by cbv
    rw [grown.size, one]
    decide
  refine ⟨carried, by cbv, product, sine, ?_, ?_⟩
  · apply (root_replaces_jets.{0} positive size carried product).1.mpr
    have factors : refusedProduct.2.children 4 = [2, 3] := by cbv
    exact ⟨0, 2, 3, 0, 2, .child (by simp [factors]), grown.node 3 _ (by cbv),
      grown.node 0 _ (by cbv), rfl, by decide⟩
  · have ends := (root_replaces_jets.{0} positive size carried sine).2
    have run : ((root Conditions.curved Conditions.curved.slots 5 refusedProduct.1).run'
        refusedProduct.2).map Prod.fst = some 9 := by cbv
    cases done : root Conditions.curved Conditions.curved.slots 5 refusedProduct.1
        refusedProduct.2 with
    | ok p b =>
      obtain ⟨form, p', c, fresh, same⟩ := ends.of_ok done
      exact ⟨p, b, p', c, rfl, form, fresh, same⟩
    | error e b =>
      rw [EStateM.run', EStateM.run, done] at run
      cases run

end Substitute

end JetForm
