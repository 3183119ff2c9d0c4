/-!
# Rows of a text

A text is split into rows after each line break. A row keeps its own line break, and a break at the
very end opens no further row. Lines are rows without their ending, which is either a line break or
a carriage return followed by a line break.
-/

namespace Offside.Text

/-- The text split after each line break; every row is non-empty and keeps its break. -/
def rows : List Char → List (List Char)
  | [] => []
  | c :: cs =>
    if c = '\n' then [c] :: rows cs
    else
      match rows cs with
      | [] => [[c]]
      | row :: others => (c :: row) :: others

/-- A row and its ending apart: a line break, a carriage return in front of one included. -/
def splitEnding (row : List Char) : List Char × List Char :=
  match row.reverse with
  | '\n' :: '\r' :: body => (body.reverse, ['\r', '\n'])
  | '\n' :: body => (body.reverse, ['\n'])
  | body => (body.reverse, [])

/-- The lines of a text. -/
def lines (cs : List Char) : List (List Char) := (rows cs).map fun row => (splitEnding row).1

end Offside.Text
