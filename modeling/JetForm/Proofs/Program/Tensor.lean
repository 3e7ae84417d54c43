import JetForm.Numerics.Linear
import JetForm.Program.Tensor
import JetForm.Proofs.Outcome
import Mathlib.Data.List.Forall2

/-! # Indices and broadcasting

    `ravel` and `unravel` are inverse to each other between the indices inside a
    shape and the positions of its entries.  So a regular tensor, which has an
    entry for each index, is known by its entries at the indices.

    Shapes are broadcast from the last axis on, and the recursion of
    `broadcastReversed` runs over reversed shapes.  `Fits s r` says that shape
    `s` can be repeated to shape `r`.  Two shapes that fit a third one have a
    common shape that fits it too, and reading through the common shape is the
    same as reading directly. -/

namespace JetForm

namespace Tensor

variable {α β γ : Type}

/-! ## Indices -/

/-- The index has an entry for each axis of the shape, and none is too large. -/
def Inside (shape index : List Nat) : Prop :=
  List.Forall₂ (fun size i => i < size) shape index

@[simp] theorem volume_nil : volume [] = 1 := rfl

@[simp] theorem volume_cons (n : Nat) (shape : List Nat) :
    volume (n :: shape) = n * volume shape := rfl

theorem unravel_inside {shape : List Nat} {k : Nat} (hk : k < volume shape) :
    Inside shape (unravel shape k) := by
  induction shape generalizing k with
  | nil => exact List.Forall₂.nil
  | cons n rest ih =>
    rw [volume_cons] at hk
    have positive : 0 < volume rest := Nat.pos_of_mul_pos_left (Nat.zero_lt_of_lt hk)
    exact List.Forall₂.cons (Nat.div_lt_of_lt_mul (by rwa [Nat.mul_comm])) (ih (Nat.mod_lt k positive))

theorem ravel_unravel {shape : List Nat} {k : Nat} (hk : k < volume shape) :
    ravel shape (unravel shape k) = k := by
  induction shape generalizing k with
  | nil =>
    obtain rfl : k = 0 := by simpa using hk
    rfl
  | cons n rest ih =>
    rw [volume_cons] at hk
    have positive : 0 < volume rest := Nat.pos_of_mul_pos_left (Nat.zero_lt_of_lt hk)
    rw [unravel, ravel, ih (Nat.mod_lt k positive)]
    exact Nat.div_add_mod' k (volume rest)

theorem ravel_lt {shape index : List Nat} (inside : Inside shape index) :
    ravel shape index < volume shape := by
  induction inside with
  | nil => simp [ravel]
  | @cons n i rest index hi _ ih =>
    rw [ravel, volume_cons]
    calc i * volume rest + ravel rest index
        < i * volume rest + volume rest := by omega
      _ = (i + 1) * volume rest := (Nat.succ_mul i _).symm
      _ ≤ n * volume rest := Nat.mul_le_mul_right _ hi

theorem unravel_ravel {shape index : List Nat} (inside : Inside shape index) :
    unravel shape (ravel shape index) = index := by
  induction inside with
  | nil => rfl
  | @cons n i rest index _ tail ih =>
    have small := ravel_lt tail
    rw [ravel, unravel, Nat.mul_comm, Nat.mul_add_div (Nat.zero_lt_of_lt small),
      Nat.div_eq_of_lt small, Nat.add_zero, Nat.mul_add_mod, Nat.mod_eq_of_lt small, ih]

theorem Inside.length_eq {shape index : List Nat} (inside : Inside shape index) :
    shape.length = index.length :=
  List.Forall₂.length_eq inside

theorem inside_reverse {shape index : List Nat} :
    Inside shape.reverse index.reverse ↔ Inside shape index :=
  List.forall₂_reverse_iff

theorem Inside.append {shape index shape' index' : List Nat} (inside : Inside shape index)
    (inside' : Inside shape' index') : Inside (shape ++ shape') (index ++ index') :=
  List.rel_append inside inside'

/-! ## Entries -/

/-- There is an entry for each index. -/
def Regular (x : Tensor α) : Prop :=
  x.entries.size = volume x.shape

theorem regular_scalar (e : α) : (scalar e).Regular := rfl

theorem regular_ofFn (shape : List Nat) (f : List Nat → α) : (ofFn shape f).Regular :=
  Array.size_ofFn

theorem Regular.map {x : Tensor α} (regular : x.Regular) (f : α → β) : (x.map f).Regular := by
  rw [Regular, Tensor.map, Array.size_map]
  exact regular

theorem get_ofFn {shape index : List Nat} (inside : Inside shape index) (f : List Nat → α)
    (fallback : α) : (ofFn shape f).get fallback index = f index := by
  simp [get, ofFn, ravel_lt inside, unravel_ravel inside]

/-- An index inside of a regular tensor has an entry. -/
theorem Regular.getElem? {x : Tensor α} (regular : x.Regular) {index : List Nat}
    (inside : Inside x.shape index) (fallback : α) :
    x.entries[ravel x.shape index]? = some (x.get fallback index) := by
  have there : ravel x.shape index < x.entries.size := by
    rw [regular]
    exact ravel_lt inside
  simp [get, there]

theorem get_map {x : Tensor α} (regular : x.Regular) {index : List Nat}
    (inside : Inside x.shape index) (f : α → β) (fallback : α) (fallback' : β) :
    (x.map f).get fallback' index = f (x.get fallback index) := by
  show (x.entries.map f)[ravel x.shape index]?.getD fallback' = _
  rw [Array.getElem?_map, regular.getElem? inside fallback]
  rfl

/-- Computing with each entry keeps the shape.  A failure is that of some entry. -/
theorem Regular.ended_mapM {ε : Type} {x : Tensor α} (regular : x.Regular) (f : α → Except ε β)
    (fallback : α) (fallback' : β) : Ended (x.mapM f)
      (fun y => y.shape = x.shape ∧ y.Regular ∧ ∀ index, Inside x.shape index →
        f (x.get fallback index) = .ok (y.get fallback' index))
      fun e => ∃ index, Inside x.shape index ∧ f (x.get fallback index) = .error e := by
  have lists : x.mapM f = (fun ys => ⟨x.shape, ys.toArray⟩) <$> x.entries.toList.mapM f := by
    rw [mapM, Array.mapM_eq_mapM_toList, Functor.map_map]
  rw [lists]
  have each : Ended (x.entries.toList.mapM f) (List.Forall₂ (fun e y => f e = .ok y) x.entries.toList)
      fun e => ∃ index, Inside x.shape index ∧ f (x.get fallback index) = .error e := by
    apply Ended.mapM
    intro e he
    apply Ended.intro fun _ => id
    intro failure failed
    -- the entry that fails has an index, since the tensor is regular
    obtain ⟨k, hk, rfl⟩ := List.mem_iff_getElem.mp he
    have hk : k < volume x.shape := by rwa [← regular]
    refine ⟨unravel x.shape k, unravel_inside hk, ?_⟩
    rw [get, ravel_unravel hk]
    simpa [regular ▸ hk] using failed
  cases outcome : x.entries.toList.mapM f with
  | error e => exact each.of_error outcome
  | ok ys =>
    have related := each.of_ok outcome
    refine ⟨rfl, ?_, ?_⟩
    · show ys.length = volume x.shape
      rw [← regular, ← related.length_eq, Array.length_toList]
    · intro index inside
      have there := regular.getElem? inside fallback
      rw [← Array.getElem?_toList] at there
      obtain ⟨y, listed, value⟩ := exists_of_forall₂_left related there
      rw [value]
      simp [get, listed]

/-! ## Shapes that fit -/

/-- The first shape can be repeated to the second one, if both are read from the
    last axis on. -/
def FitsReversed : List Nat → List Nat → Prop
  | [], _ => True
  | _ :: _, [] => False
  | x :: xs, y :: ys => (x = y ∨ x = 1) ∧ FitsReversed xs ys

/-- The first shape can be repeated to the second one. -/
def Fits (shape batch : List Nat) : Prop :=
  FitsReversed shape.reverse batch.reverse

/-- Where an index of a repeated axis comes from. -/
def origin (size i : Nat) : Nat :=
  if size = 1 then 0 else i

theorem fitsReversed_refl (xs : List Nat) : FitsReversed xs xs := by
  induction xs with
  | nil => trivial
  | cons x xs ih => exact ⟨Or.inl rfl, ih⟩

theorem FitsReversed.length_le {xs zs : List Nat} (fits : FitsReversed xs zs) :
    xs.length ≤ zs.length := by
  induction xs generalizing zs with
  | nil => simp
  | cons x xs ih =>
    cases zs with
    | nil => exact fits.elim
    | cons z zs => simpa using ih fits.2

/-- Shapes with a common shape can be repeated to it. -/
theorem fits_of_broadcastReversed {xs ys zs : List Nat}
    (common : broadcastReversed xs ys = some zs) : FitsReversed xs zs ∧ FitsReversed ys zs := by
  induction xs generalizing ys zs with
  | nil =>
    cases common
    exact ⟨trivial, fitsReversed_refl _⟩
  | cons x xs ih =>
    cases ys with
    | nil =>
      cases common
      exact ⟨fitsReversed_refl _, trivial⟩
    | cons y ys =>
      simp only [broadcastReversed] at common
      obtain ⟨rest, tail, common⟩ := Option.bind_eq_some_iff.mp common
      obtain ⟨left, right⟩ := ih tail
      -- the common length is that of both axes, or one of them has length one
      split at common
      next same =>
        cases common
        exact ⟨⟨Or.inl rfl, left⟩, ⟨Or.inl same.symm, right⟩⟩
      next =>
        split at common
        next one =>
          cases common
          exact ⟨⟨Or.inr one, left⟩, ⟨Or.inl rfl, right⟩⟩
        next =>
          split at common
          next one =>
            cases common
            exact ⟨⟨Or.inl rfl, left⟩, ⟨Or.inr one, right⟩⟩
          next => cases common

/-- Shapes that fit a third one have a common shape, which fits it too. -/
theorem FitsReversed.exists_broadcast {xs ys zs : List Nat} (left : FitsReversed xs zs)
    (right : FitsReversed ys zs) :
    ∃ common, broadcastReversed xs ys = some common ∧ FitsReversed common zs := by
  induction xs generalizing ys zs with
  | nil => exact ⟨ys, rfl, right⟩
  | cons x xs ih =>
    cases ys with
    | nil => exact ⟨x :: xs, rfl, left⟩
    | cons y ys =>
      cases zs with
      | nil => exact left.elim
      | cons z zs =>
        obtain ⟨first, left⟩ := left
        obtain ⟨second, right⟩ := right
        obtain ⟨common, tail, fits⟩ := ih left right
        simp only [broadcastReversed, tail, Option.bind_eq_bind, Option.bind_some]
        split
        next => exact ⟨x :: common, rfl, first, fits⟩
        next =>
          split
          next => exact ⟨y :: common, rfl, second, fits⟩
          next =>
            split
            next => exact ⟨x :: common, rfl, first, fits⟩
            next => omega

/-- A shape adds nothing to a shape that it fits. -/
theorem FitsReversed.broadcast_eq {xs zs : List Nat} (fits : FitsReversed xs zs) :
    broadcastReversed xs zs = some zs := by
  induction xs generalizing zs with
  | nil => rfl
  | cons x xs ih =>
    cases zs with
    | nil => exact fits.elim
    | cons z zs =>
      obtain ⟨first, rest⟩ := fits
      simp only [broadcastReversed, ih rest, Option.bind_eq_bind, Option.bind_some]
      rcases first with rfl | rfl
      · rw [if_pos rfl]
        rfl
      · split
        next same =>
          cases same
          rfl
        next =>
          rw [if_pos rfl]
          rfl

/-- The common shape does not depend on the order of the two. -/
theorem broadcastReversed_comm (xs ys : List Nat) :
    broadcastReversed xs ys = broadcastReversed ys xs := by
  induction xs generalizing ys with
  | nil => cases ys <;> rfl
  | cons x xs ih =>
    cases ys with
    | nil => rfl
    | cons y ys =>
      simp only [broadcastReversed, ih ys]
      congr 1
      funext rest
      by_cases same : x = y
      · rw [same]
      · rw [if_neg same, if_neg (Ne.symm same)]
        split_ifs <;> simp_all

theorem FitsReversed.inside {xs zs index : List Nat} (fits : FitsReversed xs zs)
    (inside : Inside zs index) : Inside xs (List.zipWith origin xs index) := by
  induction xs generalizing zs index with
  | nil => exact List.Forall₂.nil
  | cons x xs ih =>
    cases inside with
    | nil => exact fits.elim
    | @cons z i zs index hi tail =>
      obtain ⟨first, rest⟩ := fits
      refine List.Forall₂.cons ?_ (ih rest tail)
      unfold origin
      split <;> omega

/-- An entry is found through a common shape where it is found directly. -/
theorem FitsReversed.origin_origin {xs zs : List Nat} (fits : FitsReversed xs zs)
    (index : List Nat) : List.zipWith origin xs (List.zipWith origin zs index) =
      List.zipWith origin xs index := by
  induction xs generalizing zs index with
  | nil => rfl
  | cons x xs ih =>
    cases zs with
    | nil => exact fits.elim
    | cons z zs =>
      cases index with
      | nil => rfl
      | cons i index =>
        obtain ⟨first, rest⟩ := fits
        have same : origin x (origin z i) = origin x i := by
          unfold origin
          split
          · rfl
          · split <;> omega
        rw [List.zipWith_cons_cons, List.zipWith_cons_cons, List.zipWith_cons_cons, same, ih rest]

/-! ## Reading through a larger shape -/

theorem zipWith_take (f : Nat → Nat → Nat) (xs ys : List Nat) :
    List.zipWith f xs (ys.take xs.length) = List.zipWith f xs ys := by
  induction xs generalizing ys with
  | nil => rfl
  | cons x xs ih =>
    cases ys with
    | nil => rfl
    | cons y ys => simp [ih]

/-- The axes of an index are counted from the last one on, too. -/
theorem reverse_project {shape index : List Nat} (shorter : shape.length ≤ index.length) :
    (project shape index).reverse = List.zipWith origin shape.reverse index.reverse := by
  have dropped : (index.drop (index.length - shape.length)).length = shape.length := by
    rw [List.length_drop]
    omega
  show (List.zipWith origin shape _).reverse = _
  rw [List.reverse_zipWith dropped.symm, List.reverse_drop, Nat.sub_sub_self shorter,
    ← shape.length_reverse, zipWith_take]

theorem fits_refl (shape : List Nat) : Fits shape shape :=
  fitsReversed_refl shape.reverse

theorem nil_fits (batch : List Nat) : Fits [] batch :=
  trivial

variable {shape batch index : List Nat}

theorem Fits.length_le (fits : Fits shape batch) : shape.length ≤ batch.length := by
  simpa using FitsReversed.length_le fits

/-- What is read through a larger shape is inside the smaller one. -/
theorem Fits.inside (fits : Fits shape batch) (inside : Inside batch index) :
    Inside shape (project shape index) := by
  have shorter : shape.length ≤ index.length := inside.length_eq ▸ fits.length_le
  rw [← inside_reverse, reverse_project shorter]
  exact FitsReversed.inside fits (inside_reverse.mpr inside)

theorem Fits.project_project {common : List Nat} (small : Fits shape common)
    (fits : Fits common batch) (inside : Inside batch index) :
    project shape (project common index) = project shape index := by
  have length := inside.length_eq
  have shorter := small.length_le
  have longer := fits.length_le
  have within : shape.length ≤ (project common index).length :=
    (fits.inside inside).length_eq ▸ shorter
  apply List.reverse_injective
  rw [reverse_project within, reverse_project (by omega), reverse_project (by omega)]
  exact FitsReversed.origin_origin small index.reverse

theorem project_self (inside : Inside shape index) : project shape index = index := by
  have length : index.length - shape.length = 0 := by
    rw [inside.length_eq, Nat.sub_self]
  rw [project, length, List.drop_zero]
  clear length
  induction inside with
  | nil => rfl
  | @cons n i rest index hi _ ih =>
    rw [List.zipWith_cons_cons, ih]
    congr 1
    split <;> omega

theorem fits_of_broadcastShape {xs ys zs : List Nat} (common : broadcastShape xs ys = some zs) :
    Fits xs zs ∧ Fits ys zs := by
  obtain ⟨zs', reversed, rfl⟩ := Option.map_eq_some_iff.mp common
  have fits := fits_of_broadcastReversed reversed
  rw [← List.reverse_reverse zs'] at fits
  exact fits

theorem Fits.exists_broadcastShape {xs ys : List Nat} (left : Fits xs batch)
    (right : Fits ys batch) : ∃ common, broadcastShape xs ys = some common ∧ Fits common batch := by
  obtain ⟨zs, reversed, fits⟩ := FitsReversed.exists_broadcast left right
  rw [← List.reverse_reverse zs] at fits
  exact ⟨zs.reverse, congrArg (Option.map List.reverse) reversed, fits⟩

theorem Fits.broadcastShape_eq (fits : Fits shape batch) :
    broadcastShape shape batch = some batch := by
  rw [broadcastShape, FitsReversed.broadcast_eq fits]
  exact congrArg some batch.reverse_reverse

theorem broadcastShape_comm (xs ys : List Nat) : broadcastShape xs ys = broadcastShape ys xs := by
  rw [broadcastShape, broadcastReversed_comm, broadcastShape]

/-- The entry that stands at an index of a larger shape after broadcasting. -/
def spread (x : Tensor α) (fallback : α) (index : List Nat) : α :=
  x.get fallback (project x.shape index)

theorem spread_self {x : Tensor α} (inside : Inside x.shape index) (fallback : α) :
    x.spread fallback index = x.get fallback index := by
  rw [spread, project_self inside]

/-- Tensors that fit a shape can be combined, and what is read at an index is
    combined from what is read there. -/
theorem zip_spread {x : Tensor α} {y : Tensor β} (left : Fits x.shape batch)
    (right : Fits y.shape batch) (fallbackX : α) (fallbackY : β) (f : α → β → γ) :
    ∃ z, zip fallbackX fallbackY f x y = some z ∧ broadcastShape x.shape y.shape = some z.shape ∧
      z.Regular ∧ Fits z.shape batch ∧ ∀ index, Inside z.shape index → ∀ fallback,
        z.get fallback index = f (x.spread fallbackX index) (y.spread fallbackY index) := by
  obtain ⟨common, shapes, fits⟩ := left.exists_broadcastShape right
  refine ⟨_, by rw [zip, shapes, Option.map_some], shapes, regular_ofFn .., fits, ?_⟩
  intro index inside fallback
  exact get_ofFn inside _ fallback

/-! ## The last axis -/

/-- The tensor whose only axis is a vector. -/
def ofVector {n : Nat} (x : Vector α n) : Tensor α :=
  ⟨[n], x.toArray⟩

/-- The entries along the last axis, of length `n`, at an index into the others. -/
def row (x : Tensor α) (fallback : α) (n : Nat) (index : List Nat) : Vector α n :=
  Vector.ofFn fun k => x.get fallback (index ++ [k.val])

theorem Inside.snoc {n k : Nat} (inside : Inside shape index) (hk : k < n) :
    Inside (shape ++ [n]) (index ++ [k]) :=
  inside.append (List.Forall₂.cons hk List.Forall₂.nil)

theorem Inside.exists_snoc {n : Nat} (inside : Inside (shape ++ [n]) index) :
    ∃ before k, index = before ++ [k] ∧ Inside shape before ∧ k < n := by
  have backwards := inside_reverse.mpr inside
  rw [List.reverse_append, List.reverse_singleton, List.singleton_append] at backwards
  generalize reversed : index.reverse = other at backwards
  cases backwards with
  | @cons _ k _ rest hk tail =>
    refine ⟨rest.reverse, k, ?_, ?_, hk⟩
    · rw [← List.reverse_reverse index, reversed, List.reverse_cons]
    · rwa [← inside_reverse, List.reverse_reverse]

theorem regular_ofVector {n : Nat} (x : Vector α n) : (ofVector x).Regular := by
  simp [Regular, ofVector]

theorem get_ofVector {n : Nat} (x : Vector α n) (fallback : α) {k : Nat} (hk : k < n) :
    (ofVector x).get fallback [k] = x[k] := by
  simp [get, ofVector, ravel, hk]

theorem ofVector_toList {n : Nat} (x : Vector α n) : ⟨[n], x.toList.toArray⟩ = ofVector x :=
  congrArg (Tensor.mk [n]) x.toArray.toArray_toList

/-- A tensor with one axis is a vector. -/
theorem Regular.eq_ofVector {x : Tensor α} (regular : x.Regular) {n : Nat} (axes : x.shape = [n])
    (fallback : α) : x = ofVector (x.row fallback n []) := by
  obtain ⟨shape, entries⟩ := x
  cases axes
  have size : entries.size = n := by simpa [Regular] using regular
  subst size
  refine congrArg (Tensor.mk _) (Array.ext (by simp) ?_)
  intro k hk _
  simp [row, get, ravel]

theorem lastAxis_eq {x : Tensor α} {n : Nat} (axes : x.shape = shape ++ [n]) (fallback : α)
    (k : Nat) : x.lastAxis fallback k = ofFn shape fun index => x.get fallback (index ++ [k]) := by
  rw [lastAxis, axes, List.dropLast_concat]

theorem get_stack {xs : List (Tensor α)} {k : Nat} {x : Tensor α} (listed : xs[k]? = some x)
    (inside : Inside shape index) (fallback : α) :
    (stack shape fallback xs).get fallback (index ++ [k]) = x.get fallback index := by
  have hk : k < xs.length := (List.getElem?_eq_some_iff.mp listed).1
  refine (get_ofFn (inside.snoc hk) _ fallback).trans ?_
  simp [listed]

theorem row_ofVector {n : Nat} (x : Vector α n) (fallback : α) :
    (ofVector x).row fallback n [] = x := by
  refine Vector.ext fun k hk => ?_
  rw [row, Vector.getElem_ofFn]
  exact get_ofVector x fallback hk

theorem ofFn_eq_ofVector {n : Nat} (f : List Nat → α) :
    ofFn [n] f = ofVector (Vector.ofFn fun k : Fin n => f [k.val]) := by
  refine congrArg (Tensor.mk [n]) (Array.ext (by simp) ?_)
  intro k hk _
  simp [unravel]

theorem map_ofVector {n : Nat} (x : Vector α n) (f : α → β) :
    (ofVector x).map f = ofVector (x.map f) :=
  congrArg (Tensor.mk [n]) Vector.toArray_map.symm

/-! ## Matrices -/

section

variable {m n i j : Nat}

/-- The tensor whose two axes are those of a matrix. -/
def ofRows (rows : Matrix α m n) : Tensor α :=
  ⟨[m, n], rows.flatten.toArray⟩

theorem map_ofRows (rows : Matrix α m n) (f : α → β) :
    (ofRows rows).map f = ofRows (rows.map (·.map f)) := by
  refine congrArg (Tensor.mk [m, n]) ?_
  rw [← Vector.map_flatten, Vector.toArray_map]
  rfl

theorem inside_pair : Inside [m, n] [i, j] ↔ i < m ∧ j < n := by
  simp [Inside]

/-- A tensor with two axes is a matrix. -/
theorem Regular.eq_ofRows {x : Tensor α} (regular : x.Regular) (axes : x.shape = [m, n])
    (fallback : α) : x = ofRows (Vector.ofFn fun i : Fin m => x.row fallback n [i.val]) := by
  obtain ⟨shape, entries⟩ := x
  cases axes
  have size : entries.size = m * n := by simpa [Regular] using regular
  refine congrArg (Tensor.mk _) (Array.ext (by simp [size]) ?_)
  intro k hk _
  have position : ravel [m, n] [k / n, k % n] = k := by
    simp [ravel, Nat.div_add_mod']
  simp [Vector.getElem_flatten, row, get, position, hk]

theorem ofFn_eq_ofRows (f : List Nat → α) :
    ofFn [m, n] f = ofRows (Matrix.ofFn fun (i : Fin m) (j : Fin n) => f [i.val, j.val]) := by
  refine congrArg (Tensor.mk _) (Array.ext (by simp) ?_)
  intro k hk _
  simp [Vector.getElem_flatten, Matrix.ofFn, unravel]

theorem get_ofRows (rows : Matrix α m n) (fallback : α) (hi : i < m) (hj : j < n) :
    (ofRows rows).get fallback [i, j] = rows[i][j] := by
  have inside : Inside [m, n] [i, j] := inside_pair.mpr ⟨hi, hj⟩
  have position : i * n + j < m * n := by
    simpa [ravel] using ravel_lt inside
  obtain ⟨row, column⟩ : (i * n + j) / n = i ∧ (i * n + j) % n = j := by
    simpa [unravel, ravel] using unravel_ravel inside
  simp [get, ofRows, ravel, position, Vector.getElem_flatten, row, column]

theorem regular_ofRows (rows : Matrix α m n) : (ofRows rows).Regular := by
  simp [Regular, ofRows]

theorem row_ofRows (rows : Matrix α m n) (fallback : α) (hi : i < m) :
    (ofRows rows).row fallback n [i] = rows[i] := by
  refine Vector.ext fun j hj => ?_
  rw [row, Vector.getElem_ofFn]
  exact get_ofRows rows fallback hi hj

theorem spread_ofRows (rows : Matrix α m n) (fallback : α) (hi : i < m) (hj : j < n) :
    (ofRows rows).spread fallback [i, j] = rows[i][j] := by
  have inside : Inside (ofRows rows).shape [i, j] := inside_pair.mpr ⟨hi, hj⟩
  rw [spread_self inside, get_ofRows rows fallback hi hj]

/-- A vector along the last axis is the same in each row. -/
theorem spread_insertAxis_zero (x : Vector α n) (fallback : α) (hj : j < n) :
    ((ofVector x).insertAxis 0).spread fallback [i, j] = x[j] := by
  have within : (if n = 1 then 0 else j) = j := by
    split <;> omega
  simp [spread, project, insertAxis, ofVector, get, ravel, within, hj]

/-- A vector along the first axis is the same in each column. -/
theorem spread_insertAxis_one (x : Vector α m) (fallback : α) (hi : i < m) :
    ((ofVector x).insertAxis 1).spread fallback [i, j] = x[i] := by
  have within : (if m = 1 then 0 else i) = i := by
    split <;> omega
  simp [spread, project, insertAxis, ofVector, get, ravel, within, hi]

theorem diagonal?_ofVector (zero : α) (x : Vector α n) : (ofVector x).diagonal? zero =
    some (ofRows (Matrix.ofFn fun i j => if i = j then x.get i else zero)) := by
  show some (ofFn [n, n] _) = _
  rw [ofFn_eq_ofRows]
  refine congrArg (fun f => some (ofRows (Matrix.ofFn f))) (funext fun i => funext fun j => ?_)
  have same : [i.val, j.val].head? = [i.val, j.val].getLast? ↔ i = j := by
    simp [Fin.ext_iff]
  exact if_congr same (get_ofVector x zero i.2) rfl

theorem transpose_ofRows (fallback : α) (rows : Matrix α m n) : (ofRows rows).transpose fallback =
    ofRows (Matrix.ofFn fun i j => (rows.get j).get i) := by
  show ofFn [n, m] _ = _
  rw [ofFn_eq_ofRows]
  refine congrArg (fun f => ofRows (Matrix.ofFn f)) (funext fun i => funext fun j => ?_)
  exact get_ofRows rows fallback j.2 i.2

end

end Tensor

end JetForm
