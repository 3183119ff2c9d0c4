import Offside.Diagnostic
import Offside.Token.Piece

/-!
# Layout: lines and indentation

The second half of scanning walks over the pieces of a source text and decides what they mean for
the layout. A line break outside brackets ends a line. The first token of a line is compared with
the open indentation levels: a deeper one opens a level, a shallower one closes levels. What is
still open at the end of the source is closed there.
-/

namespace Offside

/-- What can be wrong with the spelling of a source text. -/
inductive LexicalFault where
  | unexpectedCharacter
  | unterminatedString
  | invalidNumber (text : String)
  | inconsistentDedent
  deriving DecidableEq, Repr

/-- The wording of a fault. -/
def LexicalFault.message : LexicalFault → String
  | unexpectedCharacter => "Unexpected character."
  | unterminatedString => "Unterminated string."
  | invalidNumber text => "Invalid number literal '" ++ text ++ "'."
  | inconsistentDedent => "Unindent does not match any outer indentation level."

/-- A lexical fault and its place. -/
structure LexicalError where
  fault : LexicalFault
  line : Nat
  span : Span
  deriving DecidableEq, Repr

/-- A lexical error as it is reported. It quotes no token. -/
def LexicalError.diagnostic (e : LexicalError) : Diagnostic :=
  ⟨.lex, e.line, "", e.fault.message, e.span⟩

/-- What scanning yields, piece by piece: a token or an error. -/
inductive Lexeme where
  | token (t : Token)
  | error (e : LexicalError)
  deriving DecidableEq

/-- The token of a scanned item. -/
def Lexeme.token? : Lexeme → Option Token
  | token t => some t
  | error _ => none

/-- The error of a scanned item. -/
def Lexeme.error? : Lexeme → Option LexicalError
  | token _ => none
  | error e => some e

/-- Where the scan stands between two pieces. -/
structure Layout where
  /-- The byte offset reached. -/
  offset : Nat := 0
  /-- The current line, counted from one. -/
  line : Nat := 1
  /-- The open indentation levels above the outermost one, whose width is zero, innermost first. -/
  levels : List Nat := []
  /-- The width of the blanks since the last line break. -/
  width : Nat := 0
  /-- Whether no token has been seen on this line. -/
  lineStart : Bool := true
  /-- The number of open brackets. -/
  nesting : Nat := 0
  deriving DecidableEq, Repr

namespace Layout

/-- The columns that a blank character counts for; only spaces and tabs count. -/
def columns : Char → Nat
  | ' ' => 1
  | '\t' => 8
  | _ => 0

/-- The width of a run of blanks. -/
def blankWidth : List Char → Nat
  | [] => 0
  | c :: cs => columns c + blankWidth cs

/-- The width of the innermost open level. -/
def innermost (levels : List Nat) : Nat := levels.headD 0

/-- The levels that remain open in front of a line of the given width. -/
def closeTo (width : Nat) (levels : List Nat) : List Nat := levels.dropWhile (width < ·)

/-- The levels inside the first line's block when its first token stands at the given width. -/
def reindent (width : Nat) (levels : List Nat) : List Nat :=
  if innermost levels < width then width :: levels else closeTo width levels

/-- The number of open brackets after a token. A closing bracket that closes nothing is ignored. -/
def nestingAfter (nesting : Nat) : Kind → Nat
  | .symbol s => if s.opens then nesting + 1 else if s.closes then nesting - 1 else nesting
  | _ => nesting

/-- The token that opens a level, at the start of the line's first token. -/
def indentAt (s : Layout) : Token := ⟨.indent, "<indent>", s.line, .point s.offset⟩

/-- The token that closes a level. -/
def dedentAt (s : Layout) : Token := ⟨.dedent, "<dedent>", s.line, .point s.offset⟩

/-- The changes of indentation in front of the first token of a line. -/
def indentation (s : Layout) : List Lexeme :=
  if innermost s.levels < s.width then [.token s.indentAt]
  else
    let remaining := closeTo s.width s.levels
    let closed := List.replicate (s.levels.length - remaining.length) (.token s.dedentAt)
    if innermost remaining = s.width then closed
    else closed ++ [.error ⟨.inconsistentDedent, s.line, .point s.offset⟩]

/-- The span of a piece that starts here. -/
def spanOf (s : Layout) (text : List Char) : Span :=
  ⟨s.offset, s.offset + Text.byteLength text⟩

/-- What a piece contributes to the scanned stream. -/
def emit (s : Layout) (p : Piece) : List Lexeme :=
  match p.role with
  | .blank | .comment => []
  | .stray => [.error ⟨.unexpectedCharacter, s.line, s.spanOf p.text⟩]
  | .unterminated => [.error ⟨.unterminatedString, s.line, s.spanOf p.text⟩]
  | .malformed => [.error ⟨.invalidNumber (String.ofList p.text), s.line, s.spanOf p.text⟩]
  | .token .newline =>
    if s.nesting = 0 then [.token ⟨.newline, "\\n", s.line, s.spanOf p.text⟩] else []
  | .token kind =>
    (if s.lineStart then s.indentation else []) ++
      [.token ⟨kind, String.ofList p.text, s.line, s.spanOf p.text⟩]

/-- Where the scan stands after a piece. -/
def next (s : Layout) (p : Piece) : Layout :=
  let moved :=
    { s with
      offset := s.offset + Text.byteLength p.text
      line := s.line + Text.lineBreaks p.text }
  match p.role with
  | .blank => { moved with width := s.width + blankWidth p.text }
  | .comment | .stray | .unterminated | .malformed => moved
  | .token .newline =>
    { moved with width := 0, lineStart := s.lineStart || s.nesting == 0 }
  | .token kind =>
    { moved with
      levels := if s.lineStart then reindent s.width s.levels else s.levels
      lineStart := false
      nesting := nestingAfter s.nesting kind }

/-- Everything that is still open is closed at the end of the source. -/
def finish (s : Layout) : List Lexeme :=
  List.replicate s.levels.length (.token s.dedentAt) ++
    [.token ⟨.endOfInput, "", s.line, .point s.offset⟩]

/-- One step of the scan, with what was scanned so far. -/
def step (state : Layout × Array Lexeme) (p : Piece) : Layout × Array Lexeme :=
  (state.1.next p, state.2 ++ state.1.emit p)

/-- Where the scan stands after some pieces. -/
def after (s : Layout) (ps : List Piece) : Layout := ps.foldl next s

/-- What some pieces contribute to the scanned stream. -/
def emitAll (s : Layout) : List Piece → List Lexeme
  | [] => []
  | p :: ps => s.emit p ++ (s.next p).emitAll ps

/-- Folding the steps emits all pieces and goes through them. -/
theorem foldl_step (s : Layout) (out : Array Lexeme) (ps : List Piece) :
    ps.foldl step (s, out) = (s.after ps, out ++ s.emitAll ps) := by
  induction ps generalizing s out with
  | nil => simp [after, emitAll]
  | cons p ps ih =>
    rw [List.foldl_cons, step, ih]
    simp [after, emitAll, ← Array.toList_inj]

end Layout

/-- Everything that scanning a text yields, in the order in which it is found. -/
def lexemes (cs : List Char) : List Lexeme :=
  let (final, out) := (pieces cs).foldl Layout.step ({}, #[])
  (out ++ final.finish).toList

/-- A scan is what the pieces contribute one after the other, and then the end. -/
theorem lexemes_eq (cs : List Char) :
    lexemes cs =
      Layout.emitAll {} (pieces cs) ++ (Layout.after {} (pieces cs)).finish := by
  simp [lexemes, Layout.foldl_step]

/-- A scanned source text. -/
structure Scan where
  /-- The token stream; it is complete also if there are errors. -/
  tokens : List Token
  errors : List LexicalError
  deriving DecidableEq

/-- Scans a source text. Scanning never stops at an error. -/
def scan (source : String) : Scan :=
  let found := lexemes source.toList
  ⟨found.filterMap Lexeme.token?, found.filterMap Lexeme.error?⟩

end Offside
