import Offside.Token.Kind

/-!
# Diagnostics

A problem found while scanning, parsing or running, in the form in which it is reported.
-/

namespace Offside

/-- What was being done when a problem was found. -/
inductive Stage where
  | lex | parse | runtime
  deriving DecidableEq, Repr

/-- A reported problem. -/
structure Diagnostic where
  stage : Stage
  /-- The line that is blamed, counted from one. -/
  line : Nat
  /-- Empty, or the blamed token as the message quotes it, with a space in front. -/
  location : String
  message : String
  span : Span
  deriving DecidableEq, Repr

/-- How a blamed token is quoted in a message. -/
def Token.location (t : Token) : String :=
  if t.kind = .endOfInput then " at end" else " at '" ++ t.lexeme ++ "'"

namespace Diagnostic

/-- A problem blamed on a token. -/
def atToken (stage : Stage) (t : Token) (message : String) : Diagnostic :=
  ⟨stage, t.line, t.location, message, t.span⟩

/-- The one-line form of a diagnostic. -/
def text (d : Diagnostic) : String :=
  "[line " ++ toString d.line ++ "] Error" ++ d.location ++ ": " ++ d.message

/-- Whether a diagnostic was found without running anything. -/
def isStatic (d : Diagnostic) : Bool := d.stage != .runtime

end Diagnostic

end Offside
