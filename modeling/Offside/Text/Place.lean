/-!
# Places in a text as it is displayed

A displayed text starts a new row after every character that breaks a line: line feed, vertical tab,
form feed, carriage return, next line, line separator and paragraph separator. A carriage return and
the line feed behind it are one break. A break at the very end opens no further row.
-/

namespace Offside.Text

/-- Whether a character breaks a displayed line. -/
def isLineBreak (c : Char) : Bool :=
  let n := c.toNat
  (0x0a ≤ n && n ≤ 0x0d) || n == 0x85 || n == 0x2028 || n == 0x2029

/-- The rows of a displayed text; every row is non-empty and keeps its break. -/
def displayRows : List Char → List (List Char)
  | [] => []
  | '\r' :: '\n' :: cs => ['\r', '\n'] :: displayRows cs
  | c :: cs =>
    if isLineBreak c then [c] :: displayRows cs
    else
      match displayRows cs with
      | [] => [[c]]
      | row :: others => (c :: row) :: others

/-- Nothing is lost in splitting a text into its displayed rows. -/
theorem flatten_displayRows (cs : List Char) : (displayRows cs).flatten = cs := by
  fun_induction displayRows cs with
  | case1 => rfl
  | case2 cs ih => simp [ih]
  | case3 c cs _ _ ih => simp [ih]
  | case4 c cs _ _ h ih =>
    rw [h] at ih
    simpa using ih
  | case5 c cs _ _ row others h ih =>
    rw [h] at ih
    simpa using ih

/-- A place in a text as people count it: row and column both start at one. -/
structure Place where
  /-- The row, counted from one. -/
  row : Nat
  /-- The column in characters, counted from one. -/
  column : Nat
  deriving DecidableEq, Repr

/-- The place of the character with the given index. The index just past the last character lies
at the end of the last row; a larger one has no place. -/
def place? (cs : List Char) (index : Nat) : Option Place :=
  go 1 index (displayRows cs)
where
  /-- Walks the rows with the number of the current one. -/
  go (row index : Nat) : List (List Char) → Option Place
    | [] => if index = 0 then some ⟨row, 1⟩ else none
    | [last] => if index ≤ last.length then some ⟨row, index + 1⟩ else none
    | current :: next :: others =>
      if index < current.length then some ⟨row, index + 1⟩
      else go (row + 1) (index - current.length) (next :: others)

end Offside.Text
