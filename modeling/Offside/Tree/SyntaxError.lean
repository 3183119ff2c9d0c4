import Offside.Diagnostic

/-!
# Syntax errors

What the parser can miss, where in the grammar, and the wording of the message.
-/

namespace Offside

/-- The compound statements and clauses that introduce a block. -/
inductive Header where
  | if_ | elif_ | else_ | while_ | for_ | def_
  deriving DecidableEq, Repr

/-- What a colon has to follow in each header. -/
def Header.clause : Header → String
  | if_ => "'if' condition"
  | elif_ => "'elif' condition"
  | else_ => "'else'"
  | while_ => "'while' condition"
  | for_ => "for clause"
  | def_ => "function signature"

/-- What a header belongs to. -/
def Header.construct : Header → String
  | if_ => "if statement"
  | elif_ => "elif statement"
  | else_ => "else statement"
  | while_ => "while statement"
  | for_ => "for statement"
  | def_ => "function definition"

/-- What the parser was looking for when it found something else. -/
inductive Expectation where
  | expression
  | groupEnd | listEnd | indexEnd | argumentsEnd
  | colon (header : Header)
  | lineEnd (header : Header)
  | blockStart | blockEnd
  | loopVariable | loopIn | rangeStart | rangeEnd
  | functionName | parametersStart | parameterName | parametersEnd
  | printStart | printEnd
  | assignmentSign
  deriving DecidableEq, Repr

/-- What was missing and where, in words. -/
def Expectation.describe : Expectation → String
  | expression => "expression"
  | groupEnd => "')' after expression"
  | listEnd => "']' after list elements"
  | indexEnd => "']' after index"
  | argumentsEnd => "')' after arguments"
  | colon header => "':' after " ++ header.clause
  | lineEnd header => "newline after ':' in " ++ header.construct
  | blockStart => "indentation to start block"
  | blockEnd => "indentation to end block"
  | loopVariable => "loop variable name after 'for'"
  | loopIn => "'in' after loop variable"
  | rangeStart => "'(' after 'range'"
  | rangeEnd => "')' after range arguments"
  | functionName => "function name"
  | parametersStart => "'(' after function name"
  | parameterName => "parameter name"
  | parametersEnd => "')' after parameters"
  | printStart => "'(' after 'print'"
  | printEnd => "')' after value"
  | assignmentSign => "'=' after variable name"

/-- What can be wrong with the structure of a program. -/
inductive SyntaxFault where
  /-- Something is missing. -/
  | expected (what : Expectation)
  /-- The left side of an assignment is no name. -/
  | invalidTarget
  deriving DecidableEq, Repr

/-- The wording of a fault. -/
def SyntaxFault.message : SyntaxFault → String
  | expected what => "Expect " ++ what.describe ++ "."
  | invalidTarget => "Invalid assignment target."

/-- A fault and the token that is blamed, or no token for the end of the input. -/
structure SyntaxError where
  fault : SyntaxFault
  blamed : Option Token
  deriving DecidableEq

/-- A syntax error as it is reported, for an input that ends with the given token. -/
def SyntaxError.diagnostic (finish : Token) (e : SyntaxError) : Diagnostic :=
  .atToken .parse (e.blamed.getD finish) e.fault.message

end Offside
