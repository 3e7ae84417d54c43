/-! # Faults

    The reasons why the evaluation of an expression stops.  Plain numbers fail
    on a division by zero and where a result has no double; arrays fail on
    operations that their entries do not have, and on shapes that do not fit. -/

namespace JetForm

/-- The reasons why an evaluation stops. -/
inductive Fault where
  /-- A double is divided by zero. -/
  | doubleByZero
  /-- An integer is divided by the integer zero. -/
  | integerByZero
  /-- A complex number is divided by zero. -/
  | complexByZero
  /-- Zero is raised to a negative power. -/
  | zeroToNegative
  /-- Zero is raised to a negative power among complex numbers. -/
  | complexZeroToNegative
  /-- An integer is too large to become a double. -/
  | integerTooLarge
  /-- The quotient of two integers is too large to be a double. -/
  | quotientTooLarge
  /-- A power of doubles is too large to be a double. -/
  | powerTooLarge
  /-- A power of complex numbers is too large. -/
  | complexPowerTooLarge
  /-- A complex number is to become a double. -/
  | complexToDouble
  /-- The magnitude of a complex number is too large to be a double. -/
  | magnitudeTooLarge
  /-- An integer does not fit the words of an array. -/
  | wordTooSmall
  /-- An integer does not fit the words of a scalar of an array library. -/
  | outOfWord (n : Int)
  /-- A word is raised to a negative power inside an array. -/
  | negativeExponent
  /-- A scalar word of an array library is raised to a negative power. -/
  | negativeScalarExponent
  /-- A truth value is negated, or subtracted from another one. -/
  | truthArithmetic
  /-- An output has an imaginary part. -/
  | complexOutput
  /-- A state entry is read, but no state was given. -/
  | noState
  /-- A generated function calls itself with a single argument, because it has
      the name of an operation. -/
  | shadowed (name : String)
  /-- Array shapes of different lengths do not broadcast. -/
  | shapes
  /-- Array shapes of one length do not broadcast. -/
  | extents
  /-- An entry of an array without axes is read. -/
  | noAxes
  /-- The times of an array without axes are asked for. -/
  | notIterable
  /-- The greatest of no times is asked for. -/
  | noGreatest
  /-- Rows of an array are compared as a whole. -/
  | ambiguousOrder
  /-- Something that is no function is called. -/
  | notCallable (type : String)
  /-- A value or operation does not occur where programs run. -/
  | unevaluable

end JetForm
