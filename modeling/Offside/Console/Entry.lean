import Offside.Text.Blank
import Offside.Text.Rows
import Offside.Text.Span

/-!
# Console entries

An entry of the console may take several lines. This file decides when an input is complete:
brackets and strings have to be closed, and once a line ends in a colon, the entry ends with an
empty line.
-/

namespace Offside.Console

/-- Whether an input can be run. -/
inductive Verdict where
  | complete
  | incomplete
  /-- A closing bracket closes nothing; its byte offset is given. -/
  | unmatched (bracket : Char) (offset : Nat)
  deriving DecidableEq, Repr

/-- What the text read so far is inside of. -/
inductive Inside where
  | code | string | comment
  deriving DecidableEq, Repr

/-- How the brackets and strings of an input end. -/
inductive Balance where
  /-- Nothing is open. -/
  | closed
  /-- A bracket or string is open. -/
  | opened
  /-- A closing bracket closes nothing. -/
  | unmatched (bracket : Char) (offset : Nat)
  deriving DecidableEq, Repr

/-- Walks over the input with the byte offset and the number of open brackets. -/
def balanceFrom (inside : Inside) (offset depth : Nat) : List Char → Balance
  | [] => if inside = .string ∨ 0 < depth then .opened else .closed
  | c :: cs =>
    let after := offset + c.utf8Size
    match inside with
    | .string => balanceFrom (if c = '"' then .code else .string) after depth cs
    | .comment => balanceFrom (if c = '\n' then .code else .comment) after depth cs
    | .code =>
      if c = '"' then balanceFrom .string after depth cs
      else if c = '#' then balanceFrom .comment after depth cs
      else if c = '(' ∨ c = '[' ∨ c = '\x7b' then balanceFrom .code after (depth + 1) cs
      else if c = ')' ∨ c = ']' ∨ c = '\x7d' then
        match depth with
        | 0 => .unmatched c offset
        | depth + 1 => balanceFrom .code after depth cs
      else balanceFrom .code after depth cs

/-- How the brackets and strings of an input end. -/
def balance (input : List Char) : Balance := balanceFrom .code 0 0 input

/-- Whether a line of the input ends in a colon, blanks aside. -/
def opensBlock (input : List Char) : Bool :=
  (Text.lines input).any fun line => (Text.trimEnd line).getLast? == some ':'

/-- Judges an input. -/
def judge (input : List Char) : Verdict :=
  match balance input with
  | .unmatched bracket offset => .unmatched bracket offset
  | .opened => .incomplete
  | .closed =>
    if opensBlock input && input.getLast? != some '\n' then .incomplete else .complete

/-- The message on a bracket that closes nothing. -/
def unmatchedMessage (bracket : Char) (offset : Nat) : String :=
  "  - Unmatched '" ++ String.singleton bracket ++ "' at position " ++ toString offset

end Offside.Console
