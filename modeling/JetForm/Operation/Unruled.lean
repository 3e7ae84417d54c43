/-! # Operators without a rule

    Comparisons, quotients without a fraction and matrix products are operators
    that a tree cannot record.  They exist to be refused by name; between plain
    numbers they have their usual meaning. -/

namespace JetForm

/-- The comparisons. -/
inductive Comparison where
  | lt | le | gt | ge | eq | ne
  deriving DecidableEq

namespace Comparison

/-- Does the comparison hold of two values in the given order?  Values that are
    not ordered only differ. -/
def holds : Comparison → Option Ordering → Bool
  | .lt, o => o == some .lt
  | .le, o => o == some .lt || o == some .eq
  | .gt, o => o == some .gt
  | .ge, o => o == some .gt || o == some .eq
  | .eq, o => o == some .eq
  | .ne, o => o != some .eq

/-- Does it only ask whether two values are equal? -/
def isEquality : Comparison → Bool
  | .eq | .ne => true
  | _ => false

end Comparison

/-- The operators that a tree cannot record. -/
inductive UnruledOp where
  | floordiv
  | mod
  | matmul
  | compare (c : Comparison)
  deriving DecidableEq

namespace UnruledOp

/-- Name of the operator. -/
def name : UnruledOp → String
  | .floordiv => "floordiv"
  | .mod => "mod"
  | .matmul => "matmul"
  | .compare .lt => "lt"
  | .compare .le => "le"
  | .compare .gt => "gt"
  | .compare .ge => "ge"
  | .compare .eq => "eq"
  | .compare .ne => "ne"

/-- The operator that says the same with its operands exchanged; those that
    have none are asked for under their own name. -/
def reflected : UnruledOp → UnruledOp
  | .compare .lt => .compare .gt
  | .compare .le => .compare .ge
  | .compare .gt => .compare .lt
  | .compare .ge => .compare .le
  | op => op

/-- Name of the same function of an array library. -/
def arrayName : UnruledOp → String
  | .floordiv => "floor_divide"
  | .mod => "remainder"
  | .matmul => "matmul"
  | .compare .lt => "less"
  | .compare .le => "less_equal"
  | .compare .gt => "greater"
  | .compare .ge => "greater_equal"
  | .compare .eq => "equal"
  | .compare .ne => "not_equal"

def all : List UnruledOp :=
  [.floordiv, .mod, .matmul, .compare .lt, .compare .le, .compare .gt, .compare .ge,
    .compare .eq, .compare .ne]

/-- The operator with the given name in an array library. -/
def ofArrayName? (s : String) : Option UnruledOp :=
  all.find? (·.arrayName == s)

end UnruledOp

end JetForm
