import Offside.Session
import Offside.Text.Names
import Offside.Token.Piece

/-!
# Completion

The ways to complete the word in front of the cursor to a global name or reserved word.
-/

namespace Offside.Console

/-- The text in front of a byte offset, if the offset lies between two characters or at an end. -/
def textBefore? : Nat → List Char → Option (List Char)
  | 0, _ => some []
  | _ + 1, [] => none
  | n + 1, c :: cs =>
    if c.utf8Size ≤ n + 1 then (c :: ·) <$> textBefore? (n + 1 - c.utf8Size) cs else none

/-- The word at the end of a text. There is none if the character in front of it takes more than
one byte, because the start of the word is sought one byte behind that character's first. -/
def lastWord? (before : List Char) : Option (List Char) :=
  let word := (before.reverse.takeWhile Piece.isWordPart).reverse
  match before.reverse.dropWhile Piece.isWordPart with
  | [] => some word
  | c :: _ => if c.utf8Size = 1 then some word else none

/-- What is left of a name behind the beginning of it, if something is left. -/
def remainder? (word : List Char) (name : String) : Option String :=
  match name.toList.drop word.length with
  | [] => none
  | rest => if name.toList.take word.length = word then some (String.ofList rest) else none

/-- The ways to complete a word to one of some names, in increasing order. -/
def candidates (names : List String) (word : List Char) : List String :=
  if word.isEmpty then [] else Text.sortedNames (names.filterMap (remainder? word))

/-- The ways to complete the word in front of a byte offset in a line, given the global names.
There is no answer if no word can be made out. -/
def complete? (globals : List String) (line : String) (position : Nat) : Option (List String) := do
  let word ← lastWord? (← textBefore? position line.toList)
  return candidates (globals ++ Keyword.all.map Keyword.text) word

/-- What the console offers at a place in a line. -/
structure Offer where
  /-- The byte offset at which one of the texts is put into the line. -/
  position : Nat
  texts : List String
  deriving DecidableEq, Repr

/-- What the console offers at a byte offset in a line, given the global bindings. -/
def offer? (globals : Bindings) (line : String) (position : Nat) : Option Offer := do
  return ⟨position, ← complete? globals.names line position⟩

end Offside.Console
