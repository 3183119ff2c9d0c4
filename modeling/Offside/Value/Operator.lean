import Offside.RuntimeError
import Offside.Value.Basic

/-!
# Operators

What the operators do with evaluated operands.
-/

namespace Offside.Value

/-- The two numbers that an arithmetic operator needs. -/
def numbers? : Value → Value → Except RuntimeFault (Float × Float)
  | .number x, .number y => .ok (x, y)
  | _, _ => .error .operandsMustBeNumbers

/-- A sum of numbers, or a concatenation in which a number next to a string becomes text. -/
def add : Value → Value → Except RuntimeFault Value
  | .number x, .number y => .ok (.number (x + y))
  | .string s, .string t => .ok (.string (s ++ t))
  | .string s, .number y => .ok (.string (s ++ Number.text .output y))
  | .number x, .string t => .ok (.string (Number.text .output x ++ t))
  | _, _ => .error .operandsMustBeNumbersOrStrings

/-- An arithmetic operation on two numbers. -/
def arithmetic (f : Float → Float → Float) (left right : Value) : Except RuntimeFault Value := do
  let (x, y) ← numbers? left right
  return .number (f x y)

/-- A comparison of two numbers. -/
def comparison (f : Float → Float → Bool) (left right : Value) : Except RuntimeFault Value := do
  let (x, y) ← numbers? left right
  return .boolean (f x y)

/-- The quotient of two numbers; division by zero is an error. -/
def divide (left right : Value) : Except RuntimeFault Value := do
  let (x, y) ← numbers? left right
  if y == 0.0 then throw .divisionByZero else return .number (x / y)

/-- What a binary operator does, by its kind. -/
def binaryFault (kind : Kind) (left right : Value) : Except RuntimeFault Value :=
  match kind with
  | .symbol .plus => add left right
  | .symbol .minus => arithmetic (· - ·) left right
  | .symbol .star => arithmetic (· * ·) left right
  | .symbol .slash => divide left right
  | .symbol .percent => arithmetic Number.remainder left right
  | .symbol .power => arithmetic Float.pow left right
  | .symbol .greater => comparison (fun x y => x > y) left right
  | .symbol .greaterEqual => comparison (fun x y => x ≥ y) left right
  | .symbol .less => comparison (fun x y => x < y) left right
  | .symbol .lessEqual => comparison (fun x y => x ≤ y) left right
  | .symbol .equalEqual => .ok (.boolean (equal left right))
  | .symbol .bangEqual => .ok (.boolean (!equal left right))
  | _ => .error .unsupportedOperator

/-- What a prefix operator does, by its kind. -/
def unaryFault (kind : Kind) (operand : Value) : Except RuntimeFault Value :=
  match kind, operand with
  | .symbol .minus, .number x => .ok (.number (-x))
  | .symbol .minus, _ => .error .operandMustBeNumber
  | .symbol .bang, operand => .ok (.boolean !operand.isTruthy)
  | _, _ => .error .unsupportedOperator

/-- Applies a binary operator; a fault is blamed on the operator. -/
def binary (operator : Token) (left right : Value) : Except RuntimeError Value :=
  (binaryFault operator.kind left right).mapError (⟨·, operator⟩)

/-- Applies a prefix operator; a fault is blamed on the operator. -/
def unary (operator : Token) (operand : Value) : Except RuntimeError Value :=
  (unaryFault operator.kind operand).mapError (⟨·, operator⟩)

end Offside.Value
