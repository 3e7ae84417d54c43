import JetForm.Number.Arithmetic
import JetForm.Render.Quoted

/-! # Errors

    Every way in which a problem can be refused, by its cause.  Almost all of
    them are found before any integration starts, and none goes away by trying
    again: the problem has to be posed differently.

    `Error.message` is the only place where an error gets its words, and
    `Error.kind` sorts the causes into families. -/

namespace JetForm

/-- The families of errors. -/
inductive ErrorKind where
  | configuration
  | singular
  | conditions
  | unsupported
  | inseparable
  | value
  | type
  | key
  | index
  | attribute
  | zeroDivision
  | overflow

/-- What is wrong with a list of breakpoints. -/
inductive DomainError (K : Type) where
  | tooShort
  | notFinite (points : List K)
  | notIncreasing (points : List K)
  | endsDiffer (left right left' right' : K)

/-- What is wrong with a Runge-Kutta tableau. -/
inductive TableauError (K : Type) where
  | counts (stages : Nat)
  | rowLength (row : Nat)
  | rowSum (row : Nat) (stage : K)
  | weights

/-- How a leading coefficient is found to vanish. -/
inductive Singularity (K : Type) where
  | constant (order : Int) (value : K)
  | notFinite
  | vanishesAt (t : K)
  | changesSign (left right : K)
  | vanishesNear (t : K)

/-- The causes of failure. -/
inductive Error where
  -- registries and equations
  | registrySizes (left right : Nat)
  | leafOutside (size : Nat) (var : Int)
  | slotOutside (size : Nat) (var : Int)
  | nameCount (names orders : Nat)
  | equationCount (equations unknowns : Nat)
  | noDefiningEquation (order : Int) (var : Nat)
  | rhsCount (given equations : Nat)
  | rhsDependsOnUnknowns
  | unknownCountMissing
  | unknownCount (unknowns orders : Nat)
  | equationsPerOperator (given : Nat)
  | ordersDiffer (declared traced : String)
  -- domains, coefficients, tableaus
  | domain (e : DomainError Float)
  | singular (e : Singularity Float) (var : Nat)
  | tableau (e : TableauError Float)
  -- conditions
  | slotUnfixed (conditions slots slot : Nat) (var order : Nat)
  | conditionRedundant (conditions slots condition : Nat) (term : Option (Nat × Nat))
  | conditionValueCount (given slots : Nat)
  | noConditions (slots : Nat)
  -- operations without a rule
  | unaryRule (op : String)
  | binaryRule (op : String)
  | functionRule (op : String) (var : Option Nat)
  | ufuncRule (op : String) (var : Option Nat)
  | operatorRule (op : String) (var : Option Nat)
  | orderNotPositive (given : String)
  | orderNegative (given : String) (var : Option Nat)
  | operandType (type op : String) (var : Option Nat)
  | untracedOperands (op : String)
  | untracedDerivative (type : String)
  | derivativeLeft (var : Option Nat)
  | symbolicDerivative (op : String) (var : Option Nat)
  | compoundDerivative
  | conditionDerivative
  | conditionOrder (order : Nat) (bound : Int) (var : Nat)
  | algebraicVariable (var : Nat)
  | rhsType (type : String)
  | notTraced (what type : String)
  | notCallable
  | conditionValues
  | bothEnds
  | inseparable (order : Int) (equation : Nat) (var : Nat)
  | highestOutside (order : Nat) (var : Nat)
  -- values out of range
  | emptyRegistry
  | invalidNode (handle : Int)
  | invalidValue (handle : Int)
  | slotTaken (var order : Int)
  | outputCount (outputs : Nat) (size : Int)
  | slotsOutside (slots : List Int) (size : Nat)
  | stateShape (size : Nat) (shape : List Nat)
  | singleOutput (outputs : Nat)
  | singularTolerance
  | sampleCount
  | conditionIterations
  | noJacobian
  | stepSize
  | timeSpan
  | outputOutsideSpan
  | outputOutsideDomain
  | outputUnsorted
  | systemShape
  | undefinedInteger
  | infiniteInteger
  | stepCount (undefined : Bool)
  | noSamples
  /-- A zero is searched from several states at once.  The fault shows late if
      only the result has another shape. -/
  | batchedState (late : Bool)
  | budget
  | noTimes
  -- wrong kinds of argument
  | operandShape
  | linearOperator
  | argument
  /-- Something that is no number is to be inverted. -/
  | inverse (type : String)
  | argumentCount (function : String) (given : Nat)
  -- look-ups
  | missingLeaf (var : Nat)
  | missingSlot (var order : Int)
  | nameIndex
  | nodeIndex
  | orderIndex
  | attribute (type name : String)
  -- evaluation of programs and kernels, and of operands before they are recorded
  | fault (f : Fault)
  | outside (family : ErrorKind)

namespace Error

/-! ## Words -/

/-- A list in parentheses; a single entry keeps its comma. -/
def tupleText (entries : List String) : String :=
  match entries with
  | [x] => "(" ++ x ++ ",)"
  | xs => "(" ++ ", ".intercalate xs ++ ")"

/-- The details that follow a message, in parentheses. -/
def withDetails (message : String) (operation : Option String) (var : Option Int) : String :=
  let details :=
    (operation.map fun op => "operation=" ++ quotedText op).toList
      ++ (var.map fun v => "variable=" ++ toString v).toList
  if details.isEmpty then message else message ++ " (" ++ ", ".intercalate details ++ ")"

/-- A message about a variable. -/
def aboutVariable (message : String) (var : Nat) : String :=
  withDetails message none (some var)

/-- A message about an operation, and the first variable it meets. -/
def aboutOperation (message op : String) (var : Option Nat := none) : String :=
  withDetails message (some op) (var.map Int.ofNat)

/-- A message about a state term that no condition fixes, or a condition that
    fixes none. -/
def aboutTerm (message : String) (condition : Option Nat) (term : Option (Nat × Nat)) : String :=
  let message := match condition with
    | some c => message ++ " (condition=" ++ toString c ++ ")"
    | none => message
  match term with
  | some (var, order) => aboutVariable (message ++ " (order=" ++ toString order ++ ")") var
  | none => message

def conditionsFor (conditions slots : Nat) : String :=
  s!"Got {conditions} conditions for {slots} eliminated derivatives; "

def domainMessage : DomainError Float → String
  | .tooShort => "A domain needs at least two breakpoints"
  | .notFinite points =>
    "Domain breakpoints must be finite, got " ++ tupleText (points.map Decimal.exactText)
  | .notIncreasing points =>
    "Domain breakpoints must be strictly increasing, got "
      ++ tupleText (points.map Decimal.exactText)
  | .endsDiffer a b c d =>
    "Cannot combine domains [" ++ Decimal.exactText a ++ ", " ++ Decimal.exactText b ++ "] and ["
      ++ Decimal.exactText c ++ ", " ++ Decimal.exactText d ++ "]"

def tableauMessage : TableauError Float → String
  | .counts stages => s!"Tableau needs {stages} rows of a and {stages} entries of c"
  | .rowLength row => s!"Row {row} of an explicit tableau must have {row} entries"
  | .rowSum row stage =>
    s!"Row {row} of a does not sum to c[{row}] = " ++ Decimal.exactText stage
  | .weights => "Weights b must sum to one"

def singularMessage : Singularity Float → String
  | .constant order value =>
    s!"Leading coefficient of derivative order {order} is " ++ Decimal.exactText value
  | .notFinite => "Leading coefficient is not finite on the domain"
  | .vanishesAt t => "Leading coefficient vanishes at t=" ++ Decimal.general t
  | .changesSign a b =>
    "Leading coefficient changes sign in [" ++ Decimal.general a ++ ", " ++ Decimal.general b
      ++ "]"
  | .vanishesNear t => "Leading coefficient vanishes near t=" ++ Decimal.general t

/-- Faults inside array arithmetic carry no words of their own. -/
def faultMessage : Fault → String
  | .doubleByZero => "float division by zero"
  | .integerByZero => "division by zero"
  | .complexByZero => "complex division by zero"
  | .zeroToNegative => "0.0 cannot be raised to a negative power"
  | .complexZeroToNegative => "0.0 to a negative or complex power"
  | .integerTooLarge => "int too large to convert to float"
  | .quotientTooLarge => "integer division result too large for a float"
  | .powerTooLarge => "(34, 'Numerical result out of range')"
  | .complexPowerTooLarge => "complex exponentiation"
  | .magnitudeTooLarge => "absolute value too large"
  | .outOfWord n => "Python integer " ++ toString n ++ " out of bounds for int64"
  | .negativeScalarExponent => "Integers to negative integer powers are not allowed."
  | .noState => "'NoneType' object is not subscriptable"
  | .shadowed name => name ++ "() missing 1 required positional argument: 'x'"
  | .noGreatest => "max() arg is an empty sequence"
  | .complexToDouble => "float() argument must be a string or a real number, not 'complex'"
  | .notCallable type => quotedText type ++ " object is not callable"
  | .wordTooSmall | .negativeExponent | .truthArithmetic | .complexOutput | .shapes | .extents
  | .noAxes | .notIterable | .ambiguousOrder | .unevaluable => ""

/-- The words of an error. -/
def message : Error → String
  | .registrySizes a b => s!"Cannot combine trees over registries of size {a} and {b}"
  | .leafOutside size var =>
    withDetails s!"Base variable outside a registry of size {size}" none (some var)
  | .slotOutside size var =>
    withDetails s!"Slot for a base variable outside a registry of size {size}" none (some var)
  | .nameCount names orders => s!"Registry has {names} names but {orders} orders"
  | .equationCount equations unknowns =>
    s!"Got {equations} equations for {unknowns} base variables"
  | .noDefiningEquation order var =>
    aboutVariable s!"No equation left to define the derivative of order {order}" var
  | .rhsCount given equations => s!"Got {given} right-hand sides for {equations} equations"
  | .rhsDependsOnUnknowns => "Right-hand side must not depend on the unknowns"
  | .unknownCountMissing =>
    "Cannot infer the number of unknowns from the operator's signature; pass `orders`"
  | .unknownCount unknowns orders =>
    s!"Operator takes {unknowns} unknowns but {orders} orders were declared"
  | .equationsPerOperator given =>
    s!"Each operator in a sequence must return one equation, got {given}"
  | .ordersDiffer declared traced =>
    "Declared derivative orders " ++ declared ++ " differ from the traced orders " ++ traced
  | .domain e => domainMessage e
  | .singular e var => aboutVariable (singularMessage e) var
  | .tableau e => tableauMessage e
  | .slotUnfixed conditions slots slot var order =>
    aboutTerm (conditionsFor conditions slots ++ s!"no condition fixes slot {slot}") none
      (some (var, order))
  | .conditionRedundant conditions slots condition term =>
    aboutTerm (conditionsFor conditions slots ++ s!"condition {condition} fixes no new slot")
      (some condition) term
  | .conditionValueCount given slots =>
    s!"Got {given} condition values for {slots} eliminated derivatives"
  | .noConditions slots => s!"No conditions given for {slots} eliminated derivatives"
  | .unaryRule op => aboutOperation "No tree rule for unary operation" op
  | .binaryRule op => aboutOperation "No tree rule for binary operation" op
  | .functionRule op var => aboutOperation "No tree rule for function" op var
  | .ufuncRule op var => aboutOperation "No tree rule for NumPy ufunc" op var
  | .operatorRule op var =>
    aboutOperation "No tree rule for operation on a traced variable" op var
  | .orderNotPositive given =>
    aboutOperation ("Derivative order must be a positive integer, got " ++ given) "diff"
  | .orderNegative given var =>
    aboutOperation ("Derivative order must be a non-negative integer, got " ++ given) "diff" var
  | .operandType type op var => aboutOperation ("Unsupported operand of type " ++ type) op var
  | .untracedOperands op => aboutOperation "Binary operation without a traced operand" op
  | .untracedDerivative type =>
    aboutOperation ("Cannot differentiate an untraced " ++ type) "diff"
  | .derivativeLeft var =>
    aboutOperation "Derivative left in a tree that is being lowered to an evaluator" "diff" var
  | .symbolicDerivative op var =>
    aboutOperation "Cannot differentiate this expression without symbolic differentiation" op var
  | .compoundDerivative =>
    aboutOperation "Derivative of a compound expression survived normalisation" "diff"
  | .conditionDerivative =>
    aboutOperation "Derivative of a compound expression in a condition" "diff"
  | .conditionOrder order bound var =>
    aboutOperation (s!"Condition on derivative of order {order}, but the state "
      ++ s!"only holds orders below {bound}") "diff" (some var)
  | .algebraicVariable var =>
    aboutVariable ("Variable is never differentiated; algebraic constraints "
      ++ "cannot be reduced to explicit first-order form") var
  | .rhsType type => aboutOperation ("Unsupported right-hand side of type " ++ type) "rhs"
  | .notTraced what type =>
    aboutOperation (what ++ " evaluated to " ++ type ++ ", not a traced expression") "trace"
  | .notCallable =>
    aboutOperation "The operator must be a callable or a sequence of callables" "trace"
  | .conditionValues => aboutOperation "Conditions must be a callable or real numbers" "bc"
  | .bothEnds =>
    aboutOperation ("Conditions at both endpoints pose a boundary-value problem, which "
      ++ "cannot be solved by time stepping") "bc"
  | .inseparable order equation var =>
    aboutVariable (s!"Cannot isolate the derivative of order {order} in equation {equation}; "
      ++ "only an implicit formulation exists") var
  | .highestOutside order var =>
    aboutOperation (s!"Highest derivative (order {order}) appears outside its "
      ++ "defining term; only an implicit formulation exists") "diff" (some var)
  | .emptyRegistry => "n_vars must be a positive integer"
  | .invalidNode handle => s!"Invalid node handle {handle}"
  | .invalidValue handle => s!"Invalid value handle {handle}"
  | .slotTaken var order => s!"Slot for variable {var}, order {order} already allocated"
  | .outputCount outputs size => s!"Program has {outputs} outputs for a state of size {size}"
  | .slotsOutside slots size =>
    "Program reads state slots [" ++ ", ".intercalate (slots.map toString)
      ++ s!"] outside [0, {size})"
  | .stateShape size shape =>
    s!"State must have trailing dimension {size}, got shape "
      ++ tupleText (shape.map toString)
  | .singleOutput outputs => s!"Expected a single output, got {outputs}"
  | .singularTolerance => "singular_tol must be non-negative"
  | .sampleCount => "n_samples must be at least 2"
  | .conditionIterations => "condition_maxiter must be at least 1"
  | .noJacobian => "Must provide jac_fn"
  | .stepSize => "step_size must be positive"
  | .timeSpan => "t_span must satisfy t_start <= t_end"
  | .outputOutsideSpan => "All values in t_eval must be within t_span"
  | .outputOutsideDomain => "All values in t_eval must be within the domain"
  | .outputUnsorted => "t_eval must be sorted in increasing order"
  | .undefinedInteger => "cannot convert float NaN to integer"
  | .infiniteInteger => "cannot convert float infinity to integer"
  | .operandShape => "Unknown operand shape None"
  | .linearOperator =>
    "DirectDense requires a dense matrix, not a linear operator. "
      ++ "Build the Jacobian with `fd_jacobian` first."
  | .inverse type => "unsupported operand type(s) for /: 'float' and " ++ quotedText type
  | .argumentCount function given =>
    function ++ s!"() takes 1 positional argument but {given} were given"
  | .systemShape | .stepCount _ | .noSamples | .batchedState _ | .argument | .budget
  | .noTimes | .outside _ => ""
  | .missingLeaf var => toString var
  | .missingSlot var order => s!"({var}, {order})"
  | .nameIndex | .nodeIndex => "list index out of range"
  | .orderIndex => "tuple index out of range"
  | .attribute type name => quotedText type ++ " object has no attribute " ++ quotedText name
  | .fault f => faultMessage f

/-! ## Families -/

def domainKind : DomainError Float → ErrorKind
  | .endsDiffer .. => .configuration
  | _ => .value

def faultKind : Fault → ErrorKind
  | .doubleByZero | .integerByZero | .complexByZero | .zeroToNegative | .complexZeroToNegative =>
    .zeroDivision
  | .integerTooLarge | .quotientTooLarge | .powerTooLarge | .complexPowerTooLarge
  | .magnitudeTooLarge | .wordTooSmall | .outOfWord _ => .overflow
  | .negativeExponent | .truthArithmetic | .complexOutput | .noState | .shadowed _ | .extents
  | .notIterable | .notCallable _ | .complexToDouble | .unevaluable => .type
  | .negativeScalarExponent | .shapes | .noGreatest | .ambiguousOrder => .value
  | .noAxes => .index

/-- The family of an error. -/
def kind : Error → ErrorKind
  | .registrySizes .. | .leafOutside .. | .slotOutside .. | .nameCount .. | .equationCount ..
  | .noDefiningEquation .. | .rhsCount .. | .rhsDependsOnUnknowns | .unknownCountMissing
  | .unknownCount .. | .equationsPerOperator .. | .ordersDiffer .. => .configuration
  | .domain e => domainKind e
  | .singular .. => .singular
  | .slotUnfixed .. | .conditionRedundant .. | .conditionValueCount .. | .noConditions .. =>
    .conditions
  | .unaryRule .. | .binaryRule .. | .functionRule .. | .ufuncRule .. | .operatorRule ..
  | .orderNotPositive .. | .orderNegative .. | .operandType .. | .untracedOperands ..
  | .untracedDerivative .. | .derivativeLeft .. | .symbolicDerivative .. | .compoundDerivative
  | .conditionDerivative | .conditionOrder .. | .algebraicVariable .. | .rhsType ..
  | .notTraced .. | .notCallable | .conditionValues | .bothEnds => .unsupported
  | .inseparable .. | .highestOutside .. => .inseparable
  | .tableau .. | .emptyRegistry | .invalidNode .. | .invalidValue .. | .slotTaken ..
  | .outputCount .. | .slotsOutside .. | .stateShape .. | .singleOutput .. | .singularTolerance
  | .sampleCount | .conditionIterations | .noJacobian | .stepSize | .timeSpan
  | .outputOutsideSpan | .outputOutsideDomain | .outputUnsorted | .systemShape
  | .undefinedInteger | .noSamples | .budget => .value
  | .infiniteInteger => .overflow
  | .stepCount undefined => if undefined then .value else .overflow
  | .batchedState late => if late then .type else .value
  | .operandShape | .linearOperator | .argument | .inverse _ | .argumentCount .. => .type
  | .missingLeaf .. | .missingSlot .. => .key
  | .nameIndex | .nodeIndex | .orderIndex | .noTimes => .index
  | .attribute .. => .attribute
  | .fault f => faultKind f
  | .outside family => family

end Error

end JetForm
