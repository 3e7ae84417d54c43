import JetForm.Scalar

/-! # Linear systems

    `Linear.solve` is Gaussian elimination with partial pivoting.  The first
    unknown is eliminated from all rows but the one with the largest
    coefficient; the other unknowns follow from the smaller system, and the
    first one from the row that was set aside. -/

namespace JetForm

/-- A matrix as the vector of its rows. -/
abbrev Matrix (K : Type) (m n : Nat) := Vector (Vector K n) m

namespace Matrix

variable {K : Type} {m n : Nat}

/-- The matrix with given entries. -/
def ofFn (f : Fin m → Fin n → K) : Matrix K m n :=
  Vector.ofFn fun i => Vector.ofFn fun j => f i j

/-- The identity. -/
def identity [Zero K] [One K] : Matrix K n n :=
  ofFn fun i j => if i = j then 1 else 0

end Matrix

namespace Linear

/-- An equation: the coefficients of the unknowns that are left, and the value
    of their sum. -/
structure Row (K : Type) where
  coefficients : List K
  value : K

variable {K : Type} [Zero K] [Sub K] [Neg K] [Mul K] [Div K] [LT K] [DecidableLT K] [BEq K]

/-- The coefficient of the first unknown. -/
def Row.lead (r : Row K) : K :=
  r.coefficients.headD 0

/-- The row whose first coefficient is largest, and all others in order. -/
def takePivot : Row K → List (Row K) → Row K × List (Row K)
  | r, [] => (r, [])
  | r, s :: rest =>
    let (best, others) := takePivot s rest
    if magnitude r.lead < magnitude best.lead then (best, r :: others) else (r, s :: rest)

/-- Eliminate the first unknown from a row.  Where the pivot is zero, so is the
    coefficient, and the row stays. -/
def eliminate (pivot r : Row K) : Row K :=
  let factor := if pivot.lead == 0 then 0 else r.lead / pivot.lead
  ⟨List.zipWith (fun a p => a - factor * p) r.coefficients.tail pivot.coefficients.tail,
    r.value - factor * pivot.value⟩

/-- The first unknown, when the others are known. -/
def substitute (pivot : Row K) (others : List K) : K :=
  (List.zip pivot.coefficients.tail others).foldl (fun rest (a, x) => rest - a * x) pivot.value
    / pivot.lead

/-- The solution of a system with as many rows as unknowns. -/
def solveRows : Nat → List (Row K) → List K
  | 0, _ => []
  | _ + 1, [] => []
  | n + 1, r :: rest =>
    let (pivot, others) := takePivot r rest
    let xs := solveRows n (others.map (eliminate pivot))
    substitute pivot xs :: xs

/-- The solution `x` of `A x = b`. -/
def solve {n : Nat} (A : Matrix K n n) (b : Vector K n) : Vector K n :=
  let rows := List.zipWith (fun a v => (⟨a.toList, v⟩ : Row K)) A.toList b.toList
  let xs := (solveRows n rows).toArray
  Vector.ofFn fun i => xs[i]?.getD 0

end Linear

end JetForm
