import JetForm.Program.Field
import JetForm.Reduction.InitialState
import JetForm.Reduction.Normalize
import JetForm.Reduction.Split
import JetForm.Render.Infix
import JetForm.Trace.Expression

/-! # Reduction to a first-order system

    `FirstOrder.reduce` takes a problem as it is posed, with functions that
    build the equations and conditions out of placeholders, and leads it through
    all stages:

    1. tracing the operator,
    2. the normal form of derivatives,
    3. the first-order form,
    4. the vector field,
    5. sorting the conditions and solving them for the state. -/

namespace JetForm

/-! ## What is posed -/

/-- A function of the independent variable and the unknowns that can be traced.
    `parameters` are the names of its positional parameters; they are not known
    if it takes any number of arguments. -/
structure Operator where
  parameters : Option (List String)
  apply : Traced → List Traced → Tracing Operand

/-- Conditions at one end of the domain: an expression of the unknowns for each,
    or values for the state entries in the order of their slots. -/
inductive ConditionSource where
  | expressions (apply : List Traced → Tracing Operand)
  | values (vs : List Operand)

/-- The right-hand sides: one for all equations, or one for each. -/
inductive RightHandSides where
  | common (v : Operand)
  | each (vs : List Operand)

/-- A problem as it is posed.  Operators that cannot be called are `none`. -/
structure Posed where
  operators : List (Option Operator)
  domain : List Float
  orders : Option (List Number) := none
  rhs : RightHandSides := .common (.number (.int 0))
  left : Option ConditionSource := none
  right : Option ConditionSource := none
  options : ReductionOptions := {}

/-! ## What results -/

/-- The equations of a problem as expressions in one arena. -/
structure TracedProblem where
  arena : Nat
  equations : List Traced
  unknowns : List Traced
  names : List String

/-- An explicit first-order system.  `state` satisfies the conditions, if there
    are any; `failures` counts the searches for it that did not come close. -/
structure FirstOrderSystem where
  arena : Nat
  field : VectorField
  domain : Domain Float
  conditions : Option SortedConditions
  system : SplitSystem
  state : Option (List Float)
  failures : Nat

namespace FirstOrder

/-! ## Tracing -/

/-- Names of the unknowns: the parameters behind the first one, or default names
    where the parameters are not known. -/
def unknownNames (op : Operator) (orders : Option (List Number)) : Except Error (List String) :=
  match op.parameters, orders with
  | some (_ :: name :: names), none => .ok (name :: names)
  | some (_ :: name :: names), some orders =>
    if orders.length = names.length + 1 then .ok (name :: names)
    else .error (.unknownCount (names.length + 1) orders.length)
  | _, some orders => .ok (Registry.defaultNames orders.length)
  | _, none => .error .unknownCountMissing

/-- The expressions in a result, all of them in the given arena. -/
def expressions (arena : Nat) (what : String) (result : Operand) : Tracing (List Traced) :=
  let items :=
    match result with
    | .sequence items => items
    | item => [item]
  items.mapM fun
    | .traced e => do
      if e.arena = arena then return e
      else Traced.make arena (← Expression.bring arena e) e.domain
    | item => throw (.notTraced what item.typeName)

/-- Apply one of several operators.  If there are more, each returns a single
    equation. -/
def equationsOf (p : Placeholders) (several : Bool) (op : Operator) : Tracing (List Traced) := do
  let equations ← expressions p.time.arena "Operator" (← op.apply p.time p.unknowns)
  if several && equations.length ≠ 1 then throw (.equationsPerOperator equations.length)
  return equations

/-- Apply the operators to fresh placeholders. -/
def trace (operators : List (Option Operator)) (points : List Float)
    (orders : Option (List Number)) : Tracing TracedProblem := do
  match operators.mapM id with
  | none | some [] => throw .notCallable
  | some (op :: others) =>
    let names ← MonadExcept.ofExcept (unknownNames op orders)
    let domain ← Workspace.checkDomain (Domain.create points)
    let p ← Placeholders.create names.length domain
    let equations ← (op :: others).mapM (equationsOf p !others.isEmpty)
    return ⟨p.time.arena, equations.flatten, p.unknowns, names⟩

/-! ## Domains, orders and right-hand sides -/

/-- A domain with the breakpoints of all expressions. -/
def joinDomains (d : Domain Float) (es : List Traced) : Tracing (Domain Float) :=
  es.foldlM (fun d e => Workspace.checkDomain (d.union e.domain)) d

/-- A number without its fraction. -/
def wholeNumber (n : Number) : Except Error Int :=
  match n.toInt? with
  | some k => .ok k
  | none =>
    match Binary64.truncate? n.toFloat with
    | some k => .ok k
    | none => .error (if n.toFloat.isNaN then .undefinedInteger else .infiniteInteger)

/-- Fail unless the declared orders are the traced ones. -/
def checkOrders (declared : Option (List Number)) (traced : List Nat) : Except Error Unit := do
  if let some declared := declared then
    let orders ← declared.mapM wholeNumber
    if orders ≠ traced.map Int.ofNat then
      throw (.ordersDiffer (Error.tupleText (declared.map Number.exactText))
        (Error.tupleText (traced.map toString)))

/-- A right-hand side of a problem in the given arena. -/
def rightHandSide (arena : Nat) (v : Operand) : Tracing RightHandSide := do
  let ofNumber := fun (n : Number) =>
    if n.isZero then RightHandSide.zero else .value (.number n)
  match v with
  | .nothing => return .zero
  | .number (.wide x _) => return ofNumber (← Workspace.literal x.toFloat)
  | .number n => return ofNumber n
  | .array ⟨⟨[], entries⟩, _⟩ =>
    return ofNumber (← Workspace.literal (entries[0]?.getD default).toFloat)
  | .external f => return .value (.external f)
  | .traced e =>
    let w ← get
    return .tree (if e.arena = arena then none else some (w.arena e.arena)) e.handle
  | v => return .unsupported v.typeName

/-- The right-hand sides of `count` equations. -/
def rightHandSides (arena count : Nat) (rhs : RightHandSides) : Tracing (List RightHandSide) :=
  match rhs with
  | .common v => (List.replicate count v).mapM (rightHandSide arena)
  | .each vs => vs.mapM (rightHandSide arena)

/-! ## Conditions -/

/-- The expression `u_var^(order) - value`. -/
def valueCondition (unknowns : List Traced) (key : Int × Int) (value : Operand) :
    Tracing (List Traced) := do
  match unknowns[key.1.toNat]? with
  | none => return []
  | some u =>
    let d ← u.diff (.number (.int key.2))
    return [← Expression.combine BinaryOp.minus.name (.traced d) value]

/-- The conditions as expressions. -/
def conditionTrees (p : TracedProblem) (slots : SlotTable) (source : ConditionSource) :
    Tracing (List Traced) := do
  match source with
  | .expressions apply => expressions p.arena "Condition" (← apply p.unknowns)
  | .values vs =>
    if !vs.all (·.realNumber?.isSome) then throw .conditionValues
    if vs.length ≠ slots.size then throw (.conditionValueCount vs.length slots.size)
    List.flatten <$> (slots.keys.zip vs).mapM fun (key, v) => valueCondition p.unknowns key v

/-- What the conditions add to a system. -/
structure Fixed where
  domain : Domain Float
  conditions : SortedConditions
  state : List Float
  failed : Bool

/-- Sort and solve the conditions at one end. -/
def fixState (p : TracedProblem) (domain : Domain Float) (system : SplitSystem)
    (options : ReductionOptions) (source : ConditionSource) (endpoint : Endpoint) :
    Tracing Fixed := do
  let location :=
    match endpoint with
    | .right => domain.right
    | _ => domain.left
  let trees ← conditionTrees p system.slots source
  let domain ← joinDomains domain trees
  Workspace.within p.arena do
    let roots ← Arena.normalize (trees.map Traced.handle)
    let conditions ← MonadExcept.ofExcept
      (Conditions.sort (← get) roots system.registry system.slots location endpoint)
    let (state, failed) ←
      InitialState.find conditions system.registry system.slots options none
    return ⟨domain, conditions, state, failed⟩

/-! ## Reduction -/

/-- The end at which conditions are given. -/
def conditionEnd (posed : Posed) : Option (ConditionSource × Endpoint) :=
  match posed.left, posed.right with
  | some source, _ => some (source, .left)
  | none, some source => some (source, .right)
  | none, none => none

/-- The first-order form of the traced equations. -/
def splitEquations (p : TracedProblem) (domain : Domain Float) (posed : Posed) :
    Tracing SplitSystem := do
  let roots ← Workspace.within p.arena (Arena.normalize (p.equations.map Traced.handle))
  let traced := ((← get).arena p.arena).tracedOrders roots
  MonadExcept.ofExcept (checkOrders posed.orders traced)
  let registry ← MonadExcept.ofExcept (Registry.create (traced.map Int.ofNat) p.names)
  let rhs ← rightHandSides p.arena roots.length posed.rhs
  Workspace.within p.arena (Arena.split roots registry domain (some rhs) posed.options)

/-- The vector field of some equations. -/
def fieldOf (a : Arena) (equations : List Nat) : Except Error VectorField := do
  VectorField.create (← Program.ofTrees a equations) equations.length

/-- Reduce a problem to an explicit first-order system. -/
def reduce (posed : Posed) : Tracing FirstOrderSystem := do
  if posed.left.isSome && posed.right.isSome then throw .bothEnds
  let p ← trace posed.operators posed.domain posed.orders
  let domain ← Workspace.checkDomain (Domain.create posed.domain)
  let domain ← joinDomains domain p.equations
  let system ← splitEquations p domain posed
  let field ← MonadExcept.ofExcept (fieldOf ((← get).arena p.arena) system.equations)
  match conditionEnd posed with
  | none => return ⟨p.arena, field, domain, none, system, none, 0⟩
  | some (source, endpoint) =>
    let fixed ← fixState p domain system posed.options source endpoint
    return ⟨p.arena, field, fixed.domain, some fixed.conditions, system, some fixed.state,
      if fixed.failed then 1 else 0⟩

end FirstOrder

namespace FirstOrderSystem

/-- Do the conditions hold at the right end? -/
def isFinalValue (s : FirstOrderSystem) : Bool :=
  s.conditions.any (·.endpoint == .right)

/-- One line for each state entry. -/
def describe (s : FirstOrderSystem) (a : Arena) : Except Error (List String) :=
  s.system.equations.zipIdx.mapM fun (h, k) => do
    return s!"x[{k}]' = " ++ (← a.infixText h s.system.registry.names)

end FirstOrderSystem

end JetForm
