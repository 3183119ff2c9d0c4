import Offside.Diagnostic
import Offside.Text.Place

/-!
# Reports

The long form of a diagnostic: a title, and a mark in the named source with a label. Marks are
counted in characters: the byte offsets of a span are taken as numbers of characters. In a source
with longer characters a span may therefore reach past the text. If only its end does, by a single
character, the location is still named but no label is drawn; if more of it does, nothing is marked.
-/

namespace Offside

/-- What a report says about the marked text. -/
structure Mark where
  /-- The named source with the row and the column at which the text starts. -/
  location : String
  /-- What is written under the text, unless it reaches past the end of the source. -/
  label : Option String
  deriving DecidableEq, Repr

/-- What a report says, apart from the excerpt of the source. -/
structure Report where
  title : String
  mark : Option Mark
  deriving DecidableEq, Repr

/-- The label for the text at which a stage failed. -/
def Stage.label : Stage → String
  | lex => "This text could not be scanned"
  | parse => "Parsing stopped here"
  | runtime => "Failed while evaluating this"

/-- A span cut down to a source of the given length in bytes. -/
def Span.clampTo (length : Nat) (s : Span) : Span :=
  let start := min s.start length
  ⟨start, max start (min s.stop length)⟩

/-- The last offset of a span, which is the first one if the span is empty. -/
def Span.last (s : Span) : Nat := if s.start < s.stop then s.stop - 1 else s.start

/-- The place of a span of characters, if neither its first nor its last one lies past the end. -/
def Span.place? (cs : List Char) (s : Span) : Option Text.Place :=
  if s.last ≤ cs.length then Text.place? cs s.start else none

/-- The place of a diagnostic in its source. -/
def Diagnostic.place? (source : String) (d : Diagnostic) : Option Text.Place :=
  (d.span.clampTo source.utf8ByteSize).place? source.toList

/-- The label of a diagnostic, which is drawn only if the whole span lies in the source. -/
def Diagnostic.label? (source : String) (d : Diagnostic) : Option String :=
  if (d.span.clampTo source.utf8ByteSize).stop ≤ source.length then some d.stage.label else none

/-- The report on a diagnostic for a source with a name. -/
def Diagnostic.report (name source : String) (d : Diagnostic) : Report where
  title := "Error: " ++ d.text
  mark := (d.place? source).map fun place =>
    ⟨name ++ ":" ++ toString place.row ++ ":" ++ toString place.column, d.label? source⟩

/-- A report as text, without an excerpt. -/
def Report.text (r : Report) : String :=
  r.title ++ "\n" ++
    match r.mark with
    | some ⟨location, some label⟩ => "  " ++ location ++ "\n  " ++ label ++ "\n"
    | some ⟨location, none⟩ => "  " ++ location ++ "\n"
    | none => ""

end Offside
