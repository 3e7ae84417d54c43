import JetForm.Reduction.FirstOrder
import JetForm.Trace.Formula

/-! # Problems stated by formulas

    A statement gives the operator, the right-hand sides and the conditions as
    formulas.  `Statement.posed` turns them into the functions that are traced. -/

namespace JetForm

/-- An operator: a formula of its parameters, or a value that stands in its
    place. -/
inductive StatedOperator where
  | formula (body : Formula)
  | value (v : Formula)

/-- Conditions: a formula of the unknowns, values of the state, or a single
    value that may also be a function of the unknowns. -/
inductive StatedConditions where
  | formula (body : Formula)
  | values (vs : List Formula)
  | value (v : Formula)

/-- Right-hand sides: one for all equations, which may turn out to be a list, or
    one for each. -/
inductive StatedSides where
  | common (v : Formula)
  | each (vs : List Formula)

/-- A problem stated by formulas.  `time` and `unknowns` are the names that the
    formulas use; `parameters` are those that the operators declare. -/
structure Statement where
  time : String
  unknowns : List String
  parameters : Option (List String)
  operators : List StatedOperator
  domain : List Float
  orders : Option (List Number)
  rhs : StatedSides
  left : Option StatedConditions
  right : Option StatedConditions
  options : ReductionOptions
  externals : List (String × External)

/-- The right-hand sides in a scope. -/
def StatedSides.eval (s : Scope) : StatedSides → Tracing RightHandSides
  | .common v => do
    match ← v.eval s with
    | .sequence items => return .each items
    | v => return .common v
  | .each vs => .each <$> Formula.evalAll s vs

namespace Statement

/-- The scope outside of all placeholders. -/
def scope (p : Statement) : Scope :=
  { externals := p.externals }

/-- The function that a value stands for, if it can be called. -/
def operatorOf? : Operand → Option Operator
  | .external f => some ⟨none, fun t us => Expression.call f ((t :: us).map .traced)⟩
  | _ => none

/-- The functions that an operator stands for, as far as they can be called. -/
def operator (p : Statement) : StatedOperator → Tracing (List (Option Operator))
  | .formula body =>
    return [some ⟨p.parameters, fun t us =>
      body.eval (p.scope.withPlaceholders (p.time :: p.unknowns) t us)⟩]
  | .value v => do
    match ← v.eval p.scope with
    | .sequence items => return items.map operatorOf?
    | v => return [operatorOf? v]

/-- The source of the conditions at one end. -/
def conditions (p : Statement) : Option StatedConditions → Tracing (Option ConditionSource)
  | none => return none
  | some (.formula body) =>
    return some (.expressions fun us =>
      body.eval { p.scope with names := p.unknowns.zip (us.map Operand.traced) })
  | some (.values vs) => return some (.values (← Formula.evalAll p.scope vs))
  | some (.value v) => do
    match ← v.eval p.scope with
    | .external f => return some (.expressions fun us => Expression.call f (us.map .traced))
    | .nothing => return none
    | .sequence items => return some (.values items)
    | v => return some (.values [v])

/-- All operators of the problem, as far as they can be called. -/
def callables (p : Statement) : Tracing (List (Option Operator)) := do
  return (← p.operators.mapM p.operator).flatten

/-- The problem as it is posed to the reduction. -/
def posed (p : Statement) : Tracing Posed := do
  let rhs ← p.rhs.eval p.scope
  let operators ← p.callables
  let left ← p.conditions p.left
  let right ← p.conditions p.right
  return ⟨operators, p.domain, p.orders, rhs, left, right, p.options⟩

end Statement

end JetForm
