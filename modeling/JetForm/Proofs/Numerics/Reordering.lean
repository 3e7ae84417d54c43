import JetForm.Proofs.Numerics.Elimination

/-! # Newton's method with equations in another order

    The components of a function may be written in any order.  Each of them has a
    row of forward differences of its own, so the linear systems of Newton's
    method have the same equations, in the order of the components.  A nonsingular
    system has one solution, whatever the order, and so the iterates are the same
    points.

    For a singular system there is no right answer, and one that depends on the
    order of the equations is not excluded. -/

namespace JetForm

variable {K : Type} {n : Nat}

/-! ## Linear systems -/

namespace Linear

/-- The answer for a matrix and every right-hand side does not depend on the order
    of the equations. -/
def Unordered (solve : Matrix K n n → Vector K n → Vector K n) (A : Matrix K n n) : Prop :=
  ∀ b A' b', (rowsOf A b).Perm (rowsOf A' b') → solve A b = solve A' b'

variable [Field K] {A A' : Matrix K n n} {b b' : Vector K n}

theorem apply_eq_apply_iff (b : Vector K n) {x y : Vector K n} : A.apply x = A.apply y ↔
    ∀ r ∈ rowsOf A b, dot r.coefficients x.toList = dot r.coefficients y.toList := by
  have entry : ∀ (z : Vector K n) (i : Fin n),
      (A.apply z).get i = dot (A.get i).toList z.toList := by
    intro z i
    rw [dot_toList, Matrix.get_apply]
  constructor
  · intro same r hr
    obtain ⟨i, rfl⟩ := mem_rowsOf.mp hr
    show dot (A.get i).toList x.toList = dot (A.get i).toList y.toList
    rw [← entry, ← entry, same]
  · intro same
    refine Vectors.ext_get fun i => ?_
    rw [entry, entry]
    exact same _ (mem_rowsOf.mpr ⟨i, rfl⟩)

/-- Reordering equations keeps a matrix nonsingular. -/
theorem nonsingular_of_perm (perm : (rowsOf A b).Perm (rowsOf A' b')) (nonsingular : A.Nonsingular) :
    A'.Nonsingular := by
  intro x y same
  apply nonsingular
  rw [apply_eq_apply_iff b]
  intro r hr
  exact (apply_eq_apply_iff b').mp same r (perm.mem_iff.mp hr)

/-- A solver that is exact gives the one solution of a nonsingular system. -/
theorem unordered_of_nonsingular {solve : Matrix K n n → Vector K n → Vector K n}
    (solves : ∀ (A : Matrix K n n) b, A.Nonsingular → A.apply (solve A b) = b)
    (nonsingular : A.Nonsingular) :
    Unordered solve A := by
  intro b A' b' perm
  -- the answer for the one system solves the other, which has one solution only
  have solved' : A'.apply (solve A' b') = b' := solves A' b' (nonsingular_of_perm perm nonsingular)
  apply nonsingular
  rw [solves A b nonsingular, eq_comm, apply_eq_iff]
  intro r hr
  exact apply_eq_iff.mp solved' r (perm.mem_iff.mp hr)

end Linear

/-! ## Components -/

section

/-- The components of a function, one after the other. -/
def Componentwise (R : Vector K n → Vector K n) (cs : List (Vector K n → K)) : Prop :=
  ∀ y, (R y).toList = cs.map fun c => c y

variable {R : Vector K n → Vector K n} {cs : List (Vector K n → K)}

theorem Componentwise.length (componentwise : Componentwise R cs) (y : Vector K n) : cs.length = n := by
  have same := congrArg List.length (componentwise y)
  rw [Vector.length_toList, List.length_map] at same
  exact same.symm

theorem Componentwise.getElem (componentwise : Componentwise R cs) (y : Vector K n) {i : Nat} (hi : i < n)
    (hi' : i < cs.length) : (R y)[i] = cs[i] y := by
  have same : (R y).toList[i]? = (cs.map fun c => c y)[i]? := by rw [componentwise y]
  rw [List.getElem?_eq_getElem (by simpa using hi), List.getElem?_eq_getElem (by simpa using hi')]
    at same
  simpa using same

theorem Componentwise.perm (left : Componentwise R cs) {R' : Vector K n → Vector K n}
    {cs' : List (Vector K n → K)} (right : Componentwise R' cs') (perm : cs.Perm cs')
    (y : Vector K n) : (R y).toList.Perm (R' y).toList := by
  rw [left y, right y]
  exact perm.map _

/-- The forward differences of one component. -/
def Difference.row [Zero K] [One K] [Neg K] [Add K] [Sub K] [Mul K] [Div K] [LT K]
    [DecidableLT K] [LE K] [DecidableLE K] (eps : K) (c : Vector K n → K) (y : Vector K n) :
    Vector K n :=
  Vector.ofFn fun j =>
    let h := Difference.increment eps (y.get j)
    (c (Difference.moved y j h) - c y) / h

variable [Field K] [LinearOrder K]

/-- The Jacobian has a row for each component. -/
theorem Componentwise.jacobian (componentwise : Componentwise R cs) (eps : K) (y : Vector K n) :
    (Difference.jacobian eps R y).toList = cs.map fun c => Difference.row eps c y := by
  refine List.ext_getElem (by simp [componentwise.length y]) fun i hi hi' => ?_
  have inside : i < n := by simpa using hi
  have listed : i < cs.length := by simpa using hi'
  rw [List.getElem_map, Vector.getElem_toList]
  refine Vector.ext fun j hj => ?_
  simp only [Difference.jacobian, Difference.row, Matrix.ofFn, Vector.getElem_ofFn, Fin.getElem_fin,
    Vector.getElem_zipWith, componentwise.getElem _ inside listed]
  rfl

/-- The linear system of Newton's method has an equation for each component. -/
theorem Componentwise.rowsOf (componentwise : Componentwise R cs) (eps : K) (y : Vector K n) :
    Linear.rowsOf (Difference.jacobian eps R y) (-R y) =
      cs.map fun c => ⟨(Difference.row eps c y).toList, -c y⟩ := by
  have negated : (-R y).toList = cs.map fun c => -c y := by
    refine List.ext_getElem (by simp [componentwise.length y]) fun i hi hi' => ?_
    have inside : i < n := by simpa using hi
    have listed : i < cs.length := by simpa using hi'
    rw [List.getElem_map, Vector.getElem_toList, Vector.getElem_neg,
      componentwise.getElem y inside listed]
  rw [Linear.rowsOf, componentwise.jacobian, negated, List.zipWith_map_left,
    List.zipWith_map_right, List.zipWith_self]

end

/-! ## Newton's method -/

namespace Newton

variable [Field K] [LinearOrder K] {R R' : Vector K n → Vector K n}

/-- Two runs stand at the same point. -/
structure Matches (R R' : Vector K n → Vector K n) (s s' : NewtonState (Vector K n)) : Prop where
  point : s'.point = s.point
  iterations : s'.iterations = s.iterations
  residual : s.residual = R s.point
  residual' : s'.residual = R' s'.point

variable {cs cs' : List (Vector K n → K)} (perm : cs.Perm cs') (left : Componentwise R cs)
  (right : Componentwise R' cs')
include perm left right

variable {solve : Matrix K n n → Vector K n → Vector K n} {eps : K}
  (unordered : ∀ y, Linear.Unordered solve (Difference.jacobian eps R y))
include unordered

variable {settings : NewtonSettings K} {norm : Vector K n → K}
  (invariant : ∀ x y : Vector K n, x.toList.Perm y.toList → norm x = norm y)
include invariant

end Newton

/-! ## Exact arithmetic -/

variable [Field K] [LinearOrder K]

/-- The norm does not see the order of the entries, and nonsingular systems are solved exactly.
    If there are singular Jacobians, the order of the equations is not seen there either. -/
structure Numerics.Exact (N : Numerics K) (R : Vector K n → Vector K n) : Prop where
  norm : ∀ x y : Vector K n, x.toList.Perm y.toList → N.norm x = N.norm y
  solves : ∀ (A : Matrix K n n) b, A.Nonsingular → A.apply (N.solve A b) = b
  singular : ∀ y, ¬ (Difference.jacobian N.eps R y).Nonsingular →
    Linear.Unordered N.solve (Difference.jacobian N.eps R y)

theorem Numerics.Exact.unordered {N : Numerics K} {R : Vector K n → Vector K n} (exact : N.Exact R)
    (y : Vector K n) : Linear.Unordered N.solve (Difference.jacobian N.eps R y) := by
  by_cases nonsingular : (Difference.jacobian N.eps R y).Nonsingular
  · exact Linear.unordered_of_nonsingular exact.solves nonsingular
  · exact exact.singular y nonsingular

end JetForm
