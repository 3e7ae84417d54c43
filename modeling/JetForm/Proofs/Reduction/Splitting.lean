import JetForm.Proofs.Reduction.Stages

/-! # From the traced equations to those that are split

    Traced equations are brought into normal form, the orders of the unknowns are
    found in them and checked, the registry is made, and the right-hand sides are
    read.  What all of this leaves behind is `Staged`, and `Unstaged` is why it may
    fail.  Whatever holds of a split of staged equations holds of the equations of a
    problem, so nothing else opens these stages. -/

namespace JetForm

/-- The equations of a problem are stored, and their trees have been recorded. -/
theorem TracedProblem.Stored.recorded {w : Workspace} {p : TracedProblem} (stored : p.Stored w) :
    ∀ h ∈ p.equations.map Traced.handle, h < (w.arena p.arena).count ∧
      ((w.arena p.arena).expression h).recorded = true := by
  intro h hh
  obtain ⟨e, he, rfl⟩ := List.mem_map.mp hh
  obtain ⟨known, place⟩ := stored.equations e he
  exact place ▸ ⟨known.inside, known.recorded⟩

/-! ## Traced orders -/

/-- There is an order for each unknown. -/
theorem Arena.length_tracedOrders {a : Arena} (wf : a.WellFormed) {roots : List Nat}
    (inside : ∀ r ∈ roots, r < a.count) : (a.tracedOrders roots).length = a.size := by
  -- the vector of orders of every root is as long as the one that is folded
  have start : (List.replicate a.size 0).length = a.size := List.length_replicate
  unfold tracedOrders
  generalize List.replicate a.size 0 = orders at start
  induction roots generalizing orders with
  | nil => exact start
  | cons root roots ih =>
    rw [List.foldl_cons]
    apply ih fun r hr => inside r (List.mem_cons_of_mem root hr)
    rw [List.length_zipWith, start, diffOrder_info wf (inside root List.mem_cons_self)]
    simp

/-- The orders do not change as the arena grows. -/
theorem Arena.tracedOrders_grow {a b : Arena} (grown : a.Extends b) {roots : List Nat}
    (inside : ∀ r ∈ roots, r < a.count) : b.tracedOrders roots = a.tracedOrders roots := by
  unfold tracedOrders
  rw [grown.size]
  apply List.foldl_ext
  intro orders root hr
  rw [grown.info root (inside root hr)]

/-- A registry has the orders that it is made of. -/
theorem Registry.create_orders (orders : List Int) (names : List String) :
    Ended (Registry.create orders names) (fun r => r.orders = orders)
      fun e => e.isLate = false := by
  rw [Registry.create]
  generalize (if names.isEmpty then Registry.defaultNames orders.length else names) = names
  split <;> rfl

namespace FirstOrder

/-! ## What is split -/

/-- The roots are the normal forms of the traced equations. -/
structure Normalized (w : Workspace) (p : TracedProblem) (roots : List Nat) (a : Arena) :
    Prop where
  wellFormed : a.WellFormed
  grown : (w.arena p.arena).Extends a
  forms : List.Forall₂ (fun h root => Normalize.Normalizes (w.arena p.arena) h a root)
    (p.equations.map Traced.handle) roots

/-- The orders of the unknowns have been found in the normal forms and checked, and
    they are those of the registry. -/
structure Staged (declared : Option (List Number)) (w : Workspace) (p : TracedProblem)
    (roots : List Nat) (r : Registry) (a : Arena) : Prop extends Normalized w p roots a where
  checked : checkOrders declared (a.tracedOrders roots) = .ok ()
  created : Registry.create ((a.tracedOrders roots).map Int.ofNat) p.names = .ok r

/-- Why the equations are not split: one of them has no normal form, or the orders of
    the unknowns are refused. -/
inductive Unstaged (declared : Option (List Number)) (w : Workspace) (p : TracedProblem)
    (e : Error) : Prop
  | stuck {h : Nat} (listed : h ∈ p.equations.map Traced.handle)
    (stuck : ((w.arena p.arena).expression h).Stuck ((w.arena p.arena).expression h).normalForm e)
  | orders {roots : List Nat} {a : Arena} (normalized : Normalized w p roots a)
    (failed : checkOrders declared (a.tracedOrders roots) = .error e)
  | registry {roots : List Nat} {a : Arena} (normalized : Normalized w p roots a)
    (failed : Registry.create ((a.tracedOrders roots).map Int.ofNat) p.names = .error e)

section

variable {w : Workspace} {p : TracedProblem} {roots : List Nat} {a b : Arena}

namespace Normalized

theorem inside (normalized : Normalized w p roots a) : ∀ root ∈ roots, root < a.count := by
  intro root hr
  obtain ⟨h, -, normal⟩ := exists_mem_of_forall₂_right normalized.forms hr
  exact normal.inside

theorem solid (normalized : Normalized w p roots a) :
    ∀ root ∈ roots, (a.expression root).solid = true := by
  intro root hr
  obtain ⟨h, -, normal⟩ := exists_mem_of_forall₂_right normalized.forms hr
  exact normal.solid

/-- Recorded trees have normal forms that are normal. -/
theorem isNormal (normalized : Normalized w p roots a) (stored : p.Stored w) :
    ∀ root ∈ roots, (a.expression root).isNormal = true := by
  intro root hr
  obtain ⟨h, listed, normal⟩ := exists_mem_of_forall₂_right normalized.forms hr
  exact Tree.isNormal_normalForm normal.normalForm (stored.recorded h listed).2

end Normalized

variable {declared : Option (List Number)} {r : Registry}

theorem Staged.grow (staged : Staged declared w p roots r a) (wf : b.WellFormed)
    (grown : a.Extends b) : Staged declared w p roots r b := by
  have same := Arena.tracedOrders_grow grown staged.inside
  have forms := staged.forms.imp fun _ _ normal => normal.grow staged.wellFormed grown
  exact ⟨⟨wf, staged.grown.trans grown, forms⟩, same ▸ staged.checked, same ▸ staged.created⟩

/-- There is an unknown for each order. -/
theorem Staged.size (staged : Staged declared w p roots r a) : r.size = a.size := by
  rw [Registry.size, (Registry.create_orders _ _).of_ok staged.created, List.length_map,
    Arena.length_tracedOrders staged.wellFormed staged.inside]

end

/-! ## The stages -/

/-- **What holds of staged equations that are split holds of those of a problem.**
    Splitting them fails only if they do not come to be staged, or if right-hand sides
    or the split itself are refused. -/
theorem splitEquations_passes {w : Workspace} (wf : w.WellFormed) {p : TracedProblem}
    (stored : p.Stored w) (domain : Domain Float) {posed : Posed}
    (good : List RightHandSide → Arena → Prop) (done : SplitSystem → Arena → Prop)
    {failed : Error → Prop} (unstaged : ∀ e, Unstaged posed.orders w p e → failed e)
    (sides : ∀ w', w.Grows w' → Ends (rightHandSides p.arena p.equations.length posed.rhs) w'
      (fun s w'' => w'.Grows w'' ∧ good s (w''.arena p.arena)) fun e _ => failed e)
    (split : ∀ roots r a s, Staged posed.orders w p roots r a → good s a →
      Ends (Arena.split roots r domain (some s) posed.options) a
        (fun s b => (b.WellFormed ∧ a.Extends b) ∧ done s b) fun e _ => failed e) :
    Ends (splitEquations p domain posed) w
      (fun s w' => w.Grows w' ∧ done s (w'.arena p.arena)) fun e _ => failed e := by
  unfold splitEquations
  apply Ends.bind
  apply Ends.within
  apply (Arena.normalize_ends (wf p.arena) fun h hh => (stored.recorded h hh).1).mono
  case error =>
    rintro e _ ⟨h, listed, stuck⟩
    exact unstaged e (.stuck listed stuck)
  rintro roots a ⟨wf₁, extended, forms⟩
  have normalized : Normalized w p roots a := ⟨wf₁, extended, forms⟩
  have grown₁ := Workspace.grows_put wf stored.arena wf₁ extended
  have place₁ : p.arena < (w.put p.arena a).arenas.size :=
    Nat.lt_of_lt_of_le stored.arena grown₁.size
  have same : (w.put p.arena a).arena p.arena = a := Workspace.arena_put_self stored.arena a
  apply Ends.bind
  apply Ends.get
  rw [same]
  apply Ends.bind
  apply Ends.ofExcept
  apply Ended.intro ?_ fun e refused => unstaged e (.orders normalized refused)
  rintro ⟨⟩ checked
  apply Ends.bind
  apply Ends.ofExcept
  apply Ended.intro ?_ fun e refused => unstaged e (.registry normalized refused)
  intro r created
  have staged : Staged posed.orders w p roots r a := ⟨normalized, checked, created⟩
  -- the right-hand sides take serial numbers, but the roots stay as they are
  apply Ends.bind
  rw [← forms.length_eq, List.length_map]
  apply (sides _ grown₁).weaken
  rintro s w₂ ⟨grown₂, known⟩
  have place₂ : p.arena < w₂.arenas.size := Nat.lt_of_lt_of_le place₁ grown₂.size
  have later := grown₂.arena p.arena place₁
  rw [same] at later
  apply Ends.within
  apply (split roots r _ s (staged.grow (grown₂.after p.arena) later) known).weaken
  rintro s b ⟨⟨wf₃, extended₃⟩, passed⟩
  refine ⟨grown₁.trans (grown₂.trans (Workspace.grows_put grown₂.after place₂ wf₃ extended₃)), ?_⟩
  rwa [Workspace.arena_put_self place₂]

end FirstOrder

end JetForm
