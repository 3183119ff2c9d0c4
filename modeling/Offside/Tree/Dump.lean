import Offside.Tree.Basic

/-!
# Tree dumps

A program as text: expressions in parenthesized form with the operator first, and one statement
per line, indented by the depth of its block.
-/

namespace Offside

/-- The dump of a constant. -/
def Literal.dump : Literal → String
  | number value => Number.text .listing value
  | string contents => "\"" ++ contents ++ "\""
  | boolean value => if value then "True" else "False"
  | none => "None"

mutual

/-- The dump of an expression. -/
def Expr.dump : Expr → String
  | .literal value => value.dump
  | .variable name => name.lexeme
  | .grouping inner => "(group " ++ inner.dump ++ ")"
  | .unary operator operand => "(" ++ operator.lexeme ++ " " ++ operand.dump ++ ")"
  | .binary left operator right | .logical left operator right =>
    "(" ++ operator.lexeme ++ " " ++ left.dump ++ " " ++ right.dump ++ ")"
  | .assign name value => "(= " ++ name.lexeme ++ " " ++ value.dump ++ ")"
  | .list items => "(list" ++ Expr.dumpEach items ++ ")"
  | .element name position => "(index " ++ name.lexeme ++ " " ++ position.dump ++ ")"
  | .slice name start stop =>
    "(index " ++ name.lexeme ++ " " ++ start.dump ++ " " ++ stop.dump ++ ")"
  | .stride name start stop step =>
    "(index " ++ name.lexeme ++ " " ++ start.dump ++ " " ++ stop.dump ++ " " ++ step.dump ++ ")"
  | .call name arguments => "(call " ++ name.lexeme ++ Expr.dumpEach arguments ++ ")"

/-- The dumps of several expressions, each with a space in front. -/
def Expr.dumpEach : List Expr → String
  | [] => ""
  | e :: es => " " ++ e.dump ++ Expr.dumpEach es

end

/-- The dump of an expression that may be absent, with a space in front. -/
def Expr.dumpOptional : Option Expr → String
  | none => ""
  | some e => " " ++ e.dump

/-- The indentation of a statement at the given depth. -/
def Stmt.pad (depth : Nat) : String := String.ofList (List.replicate (2 * depth) ' ')

/-- A statement or clause with a body: the opening line, the dump of the body, and the closing
parenthesis on a line of its own. -/
def Stmt.enclose (depth : Nat) (head body : String) : String :=
  Stmt.pad depth ++ "(" ++ head ++ "\n" ++ body ++ Stmt.pad depth ++ ")\n"

mutual

/-- The dump of a statement at the given depth. -/
def Stmt.dump (depth : Nat) : Stmt → String
  | .expression value => Stmt.pad depth ++ "(expr " ++ value.dump ++ ")\n"
  | .print _ value => Stmt.pad depth ++ "(print " ++ value.dump ++ ")\n"
  | .assign name value =>
    Stmt.pad depth ++ "(assign " ++ name.lexeme ++ " " ++ value.dump ++ ")\n"
  | .block body => Stmt.enclose depth "block" (Stmt.dumpEach (depth + 1) body)
  | .branch condition body otherwise =>
    Stmt.enclose depth ("if " ++ condition.dump)
        (Stmt.enclose (depth + 1) "block" (Stmt.dumpEach (depth + 2) body)) ++
      Alternative.dump depth otherwise
  | .loop condition body =>
    Stmt.enclose depth ("while " ++ condition.dump)
      (Stmt.enclose (depth + 1) "block" (Stmt.dumpEach (depth + 2) body))
  | .forRange name start stop step body =>
    Stmt.enclose depth
      ("for " ++ name.lexeme ++ " (range" ++ Expr.dumpOptional start ++ " " ++ stop.dump ++
        Expr.dumpOptional step ++ ")")
      (Stmt.enclose (depth + 1) "block" (Stmt.dumpEach (depth + 2) body))
  | .forEach name iterable body =>
    Stmt.enclose depth ("for " ++ name.lexeme ++ " " ++ iterable.dump)
      (Stmt.enclose (depth + 1) "block" (Stmt.dumpEach (depth + 2) body))
  | .define name parameters body =>
    Stmt.enclose depth
      ("def " ++ name.lexeme ++ " (" ++ " ".intercalate (parameters.map Token.lexeme) ++ ")")
      (Stmt.dumpEach (depth + 1) body)
  | .return _ value => Stmt.pad depth ++ "(return" ++ Expr.dumpOptional value ++ ")\n"

/-- The dump of the further clauses of a branch. -/
def Alternative.dump (depth : Nat) : Alternative → String
  | .nothing => ""
  | .another condition body otherwise =>
    Stmt.enclose depth ("elif " ++ condition.dump)
        (Stmt.enclose (depth + 1) "block" (Stmt.dumpEach (depth + 2) body)) ++
      Alternative.dump depth otherwise
  | .last body =>
    Stmt.enclose depth "else"
      (Stmt.enclose (depth + 1) "block" (Stmt.dumpEach (depth + 2) body))

/-- The dumps of several statements. -/
def Stmt.dumpEach (depth : Nat) : List Stmt → String
  | [] => ""
  | s :: rest => Stmt.dump depth s ++ Stmt.dumpEach depth rest

end

/-- The dump of a whole program. -/
def dumpProgram (program : List Stmt) : String := Stmt.dumpEach 0 program

end Offside
