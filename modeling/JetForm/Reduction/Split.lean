import JetForm.Reduction.Assignment
import JetForm.Reduction.Coefficient
import JetForm.Reduction.Extract
import JetForm.Reduction.Options
import JetForm.Reduction.Substitute
import JetForm.Tree.Adopt

/-! # The first-order form

    For an unknown `u` of order `n` the state holds `u, u', …, u^(n-1)`.  All
    entries but the last have the next one as their derivative; the last one has

        (rhs - rest) / coeff

    where `coeff * u^(n) + rest = rhs` is the equation that defines `u`, with
    state entries in place of derivatives.  A right-hand side of zero, a missing
    rest and a coefficient of one leave no trace. -/

namespace JetForm

/-- What stands on the right of an equation. -/
inductive RightHandSide where
  | zero
  | value (v : Value)
  /-- An expression; `source` is its arena if that is another one. -/
  | tree (source : Option Arena) (h : Nat)
  /-- Something of another type, which is refused. -/
  | unsupported (type : String)

/-- Explicit first-order equations, one tree for each slot. -/
structure SplitSystem where
  registry : Registry
  equations : List Nat
  slots : SlotTable
  assignment : List Nat
  coefficients : List LeadingCoefficient

namespace Split

/-- The tree of a right-hand side; `none` is zero. -/
def rightHandSide (rhs : RightHandSide) : Building (Option Nat) := do
  match rhs with
  | .zero => return none
  | .value v => some <$> Arena.constantOf v
  | .tree source h =>
    let h ←
      match source with
      | some source => source.adopt h
      | none => pure h
    if ((← get).info h).mask ≠ 0 then throw .rhsDependsOnUnknowns
    return some h
  | .unsupported type => throw (.rhsType type)

/-- `target - rest`, where either part may be zero. -/
def difference (target rest : Option Nat) : Building Nat := do
  match target, rest with
  | none, some rest => Arena.unary .uminus rest
  | none, none => Arena.constantOf (.number (.ofFloat 0))
  | some target, none => pure target
  | some target, some rest => Arena.binary .minus (.treeTree target rest)

/-- The derivative of the last state entry of an unknown. -/
def top (coefficient : LeadingCoefficient) (target rest : Option Nat) : Building Nat := do
  let top ← difference target rest
  if coefficient.constant.any (· == 1) then return top
  else Arena.binary .rdivide (.treeTree top coefficient.handle)

/-- The derivatives of all state entries of an unknown but the last. -/
def chain (slots : SlotTable) (var order : Nat) : Building (List Nat) :=
  (List.range (order - 1)).mapM fun j => Substitute.stateEntry slots var (j + 1)

/-- What the equations share. -/
structure Problem where
  registry : Registry
  slots : SlotTable
  assignment : List Nat
  roots : List Nat
  rhs : List RightHandSide
  domain : Domain Float
  options : ReductionOptions

/-- The first-order equations of one unknown, and its leading coefficient. -/
def equationsOf (p : Problem) (var order : Nat) :
    Substitute.Substituting (List Nat × LeadingCoefficient) := do
  let e := p.assignment[var]?.getD 0
  let some leading ← Arena.extractLeading (p.roots[e]?.getD 0) var order
    | throw (.inseparable order e var)
  let coefficient ←
    MonadExcept.ofExcept (LeadingCoefficient.create (← getThe Arena) var order leading.coeff)
  MonadExcept.ofExcept
    (coefficient.check p.domain p.options.singularTolerance p.options.sampleCount.toNat)
  let lower ← chain p.slots var order
  let rest ← leading.rest.mapM (Substitute.root p.registry p.slots)
  let target ← rightHandSide (p.rhs[e]?.getD .zero)
  let last ← top coefficient target rest
  return (lower ++ [last], coefficient)

end Split

/-- Reduce equations in normal form to first order.  Without right-hand sides
    all of them are zero. -/
def Arena.split (roots : List Nat) (registry : Registry) (domain : Domain Float)
    (rhs : Option (List RightHandSide)) (options : ReductionOptions) : Building SplitSystem := do
  let rhs := rhs.getD (roots.map fun _ => .zero)
  if rhs.length ≠ roots.length then throw (.rhsCount rhs.length roots.length)
  let assignment ← MonadExcept.ofExcept ((← get).assignEquations roots registry)
  let p : Split.Problem := ⟨registry, registry.slots, assignment, roots, rhs, domain, options⟩
  let parts ← (registry.orders.zipIdx.mapM fun (entry : Int × Nat) =>
    Split.equationsOf p entry.2 entry.1.toNat).run' ∅
  return ⟨registry, (parts.map Prod.fst).flatten, p.slots, assignment, parts.map Prod.snd⟩

end JetForm
