import Offside.Tree.Basic

/-!
# Runtime values

Lists and functions have an identity besides their contents: every evaluation of a list expression
or of a slice makes a new list, and every execution of a definition makes a new function. Nothing
in the language changes a list, so the identity shows only in comparisons: a list equals itself
even if it holds a value that is not equal to itself, and functions are equal only by identity.
-/

namespace Offside

/-- A function as its definition gives it. -/
structure Function where
  name : Token
  parameters : List Token
  body : List Stmt

/-- The values of the language. -/
inductive Value where
  | number (value : Float)
  | string (contents : String)
  | boolean (value : Bool)
  | none
  | list (identity : Nat) (items : List Value)
  | function (identity : Nat) (definition : Function)

instance : Inhabited Value := ⟨.none⟩

namespace Value

/-- The value of a constant. -/
def ofLiteral : Literal → Value
  | .number value => .number value
  | .string contents => .string contents
  | .boolean value => .boolean value
  | .none => .none

/-- Absence, falsity and the number zero count as false; everything else counts as true, empty
strings and lists included. -/
def isTruthy : Value → Bool
  | number value => value != 0.0
  | boolean value => value
  | none => false
  | string _ | list _ _ | function _ _ => true

mutual

/-- Equality of values. Values of different kinds are never equal. -/
def equal : Value → Value → Bool
  | .number x, .number y => x == y
  | .string s, .string t => s == t
  | .boolean a, .boolean b => a == b
  | .none, .none => true
  | .list i xs, .list j ys => i == j || equalItems xs ys
  | .function i _, .function j _ => i == j
  | _, _ => false

/-- Equality of the items of two lists, one by one. -/
def equalItems : List Value → List Value → Bool
  | [], [] => true
  | x :: xs, y :: ys => equal x y && equalItems xs ys
  | _, _ => false

end

mutual

/-- The text of a value as the program prints it. -/
def text : Value → String
  | .number value => Number.text .output value
  | .string contents => contents
  | .boolean value => if value then "true" else "false"
  | .none => "None"
  | .list _ items => "[" ++ ", ".intercalate (texts items) ++ "]"
  | .function _ definition => "<fn " ++ definition.name.lexeme ++ ">"

/-- The texts of several values. -/
def texts : List Value → List String
  | [] => []
  | item :: items => text item :: texts items

end

end Value

end Offside
