import Mathlib.Data.Finset.Card
import Mathlib.Data.List.Perm.Basic
import Mathlib.Logic.Equiv.Fintype
import Mathlib.Tactic.Common

/-! # Lists in another order

    `Reorders σ xs ys` says that `ys` are the entries of `xs` in another order: the one at place
    `e` has gone to place `σ e`.  Places beyond the ends of the lists are mapped as well, but
    nothing stands there. -/

namespace JetForm

variable {α β : Type} {σ : Equiv.Perm Nat} {xs ys : List α}

/-- What stands at place `e` of the one list stands at place `σ e` of the other. -/
def Reorders (σ : Equiv.Perm Nat) (xs ys : List α) : Prop :=
  ∀ e, ys[σ e]? = xs[e]?

namespace Reorders

theorem symm (reordered : Reorders σ xs ys) : Reorders σ.symm ys xs := by
  intro e
  have here := reordered (σ.symm e)
  rw [Equiv.apply_symm_apply] at here
  exact here.symm

theorem map (reordered : Reorders σ xs ys) (f : α → β) : Reorders σ (xs.map f) (ys.map f) := by
  intro e
  rw [List.getElem?_map, List.getElem?_map, reordered e]

theorem lt_iff (reordered : Reorders σ xs ys) {e : Nat} : σ e < ys.length ↔ e < xs.length := by
  rw [← not_iff_not, Nat.not_lt, Nat.not_lt, ← List.getElem?_eq_none_iff, ← List.getElem?_eq_none_iff,
    reordered e]

theorem length_eq (reordered : Reorders σ xs ys) : ys.length = xs.length := by
  have image : (Finset.range xs.length).map σ.toEmbedding = Finset.range ys.length := by
    ext e
    rw [Finset.mem_map_equiv, Finset.mem_range, Finset.mem_range, ← reordered.lt_iff,
      Equiv.apply_symm_apply]
  have card := congrArg Finset.card image
  rw [Finset.card_map, Finset.card_range, Finset.card_range] at card
  exact card.symm

theorem mem_iff (reordered : Reorders σ xs ys) {x : α} : x ∈ ys ↔ x ∈ xs := by
  constructor
  · intro hx
    obtain ⟨e, listed⟩ := List.getElem?_of_mem hx
    rw [← reordered.symm e] at listed
    exact List.mem_of_getElem? listed
  · intro hx
    obtain ⟨e, listed⟩ := List.getElem?_of_mem hx
    rw [← reordered e] at listed
    exact List.mem_of_getElem? listed

end Reorders

/-- The permutation of the places behind the first one. -/
def Reorders.behind (σ : Equiv.Perm Nat) : Equiv.Perm Nat where
  toFun
    | 0 => 0
    | e + 1 => σ e + 1
  invFun
    | 0 => 0
    | e + 1 => σ.symm e + 1
  left_inv e := by cases e <;> simp
  right_inv e := by cases e <;> simp

theorem Reorders.swap (x y : α) (zs : List α) :
    Reorders (Equiv.swap 0 1) (x :: y :: zs) (y :: x :: zs) := by
  intro e
  rcases e with _ | _ | e
  · rfl
  · rfl
  · rw [Equiv.swap_apply_of_ne_of_ne (by omega) (by omega)]
    rfl

end JetForm
