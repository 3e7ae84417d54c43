/-! # Matchings

    Claimants are matched to targets, where each claimant may have any of its
    candidates and each target goes to one claimant.  A new claimant takes a
    free candidate, or one whose owner can be moved to another target by the
    same search: together the moves form an augmenting path.  Candidates are
    tried in their given order, and no target is tried twice. -/

namespace JetForm

/-- Targets with their owners; each target occurs at most once. -/
structure Matching where
  pairs : List (Nat × Nat)

namespace Matching

def empty : Matching :=
  ⟨[]⟩

/-- The claimant that has a target. -/
def owner? (m : Matching) (target : Nat) : Option Nat :=
  m.pairs.lookup target

/-- Give a target to a claimant. -/
def give (m : Matching) (target claimant : Nat) : Matching :=
  ⟨(target, claimant) :: m.pairs.filter fun pair => pair.1 != target⟩

/-- The target that a claimant has. -/
def target? (m : Matching) (claimant : Nat) : Option Nat :=
  (m.pairs.find? fun pair => pair.2 == claimant).map Prod.fst

/-- How a search ends: with a larger matching, or with the targets that were
    tried in vain. -/
inductive Outcome where
  | found (m : Matching)
  | blocked (tried : List Nat)

/-- Look for a target for `claimant` among the listed candidates.  `depth`
    bounds the number of owners that are moved; each of them has a target of
    its own, so the number of pairs is enough. -/
def search (candidates : Nat → List Nat) (m : Matching) (depth claimant : Nat) :
    List Nat → List Nat → Outcome
  | [], tried => .blocked tried
  | target :: rest, tried =>
    if target ∈ tried then search candidates m depth claimant rest tried
    else
      match m.owner? target, depth with
      | none, _ => .found (m.give target claimant)
      | some _, 0 => search candidates m 0 claimant rest (target :: tried)
      | some other, depth' + 1 =>
        match search candidates m depth' other (candidates other) (target :: tried) with
        | .found m' => .found (m'.give target claimant)
        | .blocked tried => search candidates m (depth' + 1) claimant rest tried
termination_by rest => (depth, rest.length)

/-- The matching with one more claimant, if there is a way. -/
def extend (candidates : Nat → List Nat) (m : Matching) (claimant : Nat) : Option Matching :=
  match search candidates m m.pairs.length claimant (candidates claimant) [] with
  | .found m' => some m'
  | .blocked _ => none

/-- Claimants one after the other; those without a way stay out. -/
def greedy (candidates : Nat → List Nat) (count : Nat) : Matching :=
  (List.range count).foldl (fun m claimant => (extend candidates m claimant).getD m) empty

/-- Claimants one after the other; the first without a way is the answer. -/
def complete (candidates : Nat → List Nat) (count : Nat) : Except Nat Matching :=
  (List.range count).foldlM (fun m claimant =>
    match extend candidates m claimant with
    | some m' => .ok m'
    | none => .error claimant) empty

end Matching

end JetForm
