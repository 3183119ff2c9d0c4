import Offside.Token.Kind

/-!
# Programs as trees

Expressions and statements. Names, operators and the keywords that can be blamed for a runtime
error are kept as the tokens they were read from, so that an error can point at the source.
-/

namespace Offside

/-- The constants that a program can spell out. -/
inductive Literal where
  | number (value : Float)
  | string (contents : String)
  | boolean (value : Bool)
  | none
  deriving DecidableEq

/-- Expressions. -/
inductive Expr where
  | literal (value : Literal)
  | variable (name : Token)
  /-- An expression in parentheses. -/
  | grouping (inner : Expr)
  | unary (operator : Token) (operand : Expr)
  | binary (left : Expr) (operator : Token) (right : Expr)
  /-- The conjunction or disjunction of two expressions, decided by the left one if possible. -/
  | logical (left : Expr) (operator : Token) (right : Expr)
  /-- An assignment used as an expression. -/
  | assign (name : Token) (value : Expr)
  | list (items : List Expr)
  /-- The element of a list or string at a position. -/
  | element (name : Token) (position : Expr)
  /-- The elements from one position up to another. -/
  | slice (name : Token) (start stop : Expr)
  /-- Every so many of the elements from one position up to another. -/
  | stride (name : Token) (start stop step : Expr)
  | call (name : Token) (arguments : List Expr)

instance : Inhabited Expr := ⟨.literal .none⟩

mutual

/-- Statements. The body of a compound statement is a block of its own. -/
inductive Stmt where
  | expression (value : Expr)
  | print (keyword : Token) (value : Expr)
  | assign (name : Token) (value : Expr)
  | block (body : List Stmt)
  | branch (condition : Expr) (body : List Stmt) (otherwise : Alternative)
  | loop (condition : Expr) (body : List Stmt)
  /-- Counts from `start`, or zero, to `stop` in steps of `step`, or one. -/
  | forRange (name : Token) (start : Option Expr) (stop : Expr) (step : Option Expr)
      (body : List Stmt)
  /-- Visits the elements of a list or the characters of a string. -/
  | forEach (name : Token) (iterable : Expr) (body : List Stmt)
  | define (name : Token) (parameters : List Token) (body : List Stmt)
  | return (keyword : Token) (value : Option Expr)

/-- What is done when the condition of a branch does not hold. -/
inductive Alternative where
  | nothing
  | another (condition : Expr) (body : List Stmt) (otherwise : Alternative)
  | last (body : List Stmt)

end

instance : Inhabited Stmt := ⟨.block []⟩

end Offside
