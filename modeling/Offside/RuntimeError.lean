import Offside.Diagnostic
import Offside.Sink

/-!
# Runtime errors

What can go wrong while a program runs, and the wording of the message.
-/

namespace Offside

/-- What can go wrong while a program runs. -/
inductive RuntimeFault where
  | undefinedVariable
  | operandsMustBeNumbers
  | operandsMustBeNumbersOrStrings
  | operandMustBeNumber
  | unsupportedOperator
  | divisionByZero
  | notCallable
  | arityMismatch (expected actual : Nat)
  | notIndexable
  | invalidIndex
  | indexOutOfRange
  | invalidSliceStep
  | notIterable
  | invalidRangeBound
  | zeroRangeStep
  | tooDeep
  | output (cause : SinkFault)
  deriving DecidableEq, Repr

/-- A fault and the token that is blamed for it. -/
structure RuntimeError where
  fault : RuntimeFault
  token : Token
  deriving DecidableEq

/-- The wording of a runtime error. -/
def RuntimeError.message (e : RuntimeError) : String :=
  match e.fault with
  | .undefinedVariable => "Undefined variable '" ++ e.token.lexeme ++ "'."
  | .operandsMustBeNumbers => "Operands must be numbers."
  | .operandsMustBeNumbersOrStrings => "Operands must be two numbers or two strings."
  | .operandMustBeNumber => "Operand must be a number."
  | .unsupportedOperator => "Unsupported operator '" ++ e.token.lexeme ++ "'."
  | .divisionByZero => "Division by zero."
  | .notCallable => "Can only call functions."
  | .arityMismatch expected actual =>
    "Expected " ++ toString expected ++ " arguments but got " ++ toString actual ++ "."
  | .notIndexable => "Can only index lists and strings."
  | .invalidIndex => "Index must be an integer."
  | .indexOutOfRange => "Index out of range for '" ++ e.token.lexeme ++ "'."
  | .invalidSliceStep => "Slice step must be positive."
  | .notIterable => "Can only iterate over lists and strings."
  | .invalidRangeBound => "Range bounds must be numbers."
  | .zeroRangeStep => "Range step cannot be zero."
  | .tooDeep => "Maximum recursion depth exceeded."
  | .output cause => "Could not write output: " ++ cause.message

/-- A runtime error as it is reported. -/
def RuntimeError.diagnostic (e : RuntimeError) : Diagnostic :=
  .atToken .runtime e.token e.message

end Offside
