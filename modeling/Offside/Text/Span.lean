/-!
# Positions in a source text

Source texts are read as lists of characters, but every reported position is a byte offset into
the UTF-8 encoding of the text. This file measures character lists in bytes and defines the
half-open byte ranges that tokens and diagnostics carry.
-/

namespace Offside

/-- A half-open range of byte offsets into a source text. -/
structure Span where
  /-- Offset of the first byte. -/
  start : Nat
  /-- Offset just past the last byte. -/
  stop : Nat
  deriving DecidableEq, Repr, Inhabited

/-- The empty span at an offset, used for tokens that have no text of their own. -/
def Span.point (offset : Nat) : Span := ⟨offset, offset⟩

namespace Text

/-- The number of bytes that a character list takes in UTF-8. -/
def byteLength : List Char → Nat
  | [] => 0
  | c :: cs => c.utf8Size + byteLength cs

/-- The number of line breaks in a character list. -/
def lineBreaks (cs : List Char) : Nat := cs.count '\n'

/-- The empty text has no bytes. -/
@[simp] theorem byteLength_nil : byteLength [] = 0 := rfl

/-- The first character adds its bytes. -/
@[simp] theorem byteLength_cons (c : Char) (cs : List Char) :
    byteLength (c :: cs) = c.utf8Size + byteLength cs := rfl

/-- Two texts are as long together as one after the other. -/
@[simp] theorem byteLength_append (cs ds : List Char) :
    byteLength (cs ++ ds) = byteLength cs + byteLength ds := by
  induction cs with
  | nil => simp
  | cons c cs ih => simp [ih, Nat.add_assoc]

/-- Two texts have the line breaks of both. -/
@[simp] theorem lineBreaks_append (cs ds : List Char) :
    lineBreaks (cs ++ ds) = lineBreaks cs + lineBreaks ds := by
  simp [lineBreaks]

/-- A non-empty text takes at least one byte. -/
theorem byteLength_pos {cs : List Char} (h : cs ≠ []) : 0 < byteLength cs := by
  cases cs with
  | nil => exact absurd rfl h
  | cons c cs =>
    have := c.utf8Size_pos
    simp only [byteLength_cons]
    omega

/-- The characters of `cs` that lie at byte offsets from `start` up to `stop`. -/
def slice (cs : List Char) (span : Span) : List Char :=
  go 0 cs
where
  /-- Walks the text with the offset reached so far. -/
  go (offset : Nat) : List Char → List Char
    | [] => []
    | c :: cs =>
      if offset < span.start then go (offset + c.utf8Size) cs
      else if offset < span.stop then c :: go (offset + c.utf8Size) cs
      else []

end Text

end Offside
