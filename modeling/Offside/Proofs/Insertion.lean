import Offside.Proofs.Coverage
import Offside.Proofs.InertText

/-!
# Inserting text between lines

Blanks and comments at the end of a line, and lines of their own, change a scan in positions only:
what is scanned in front of the insertion stays as it is, what is scanned behind it moves, and a new
line brings one more line end. The width of the blanks on a line matters only in front of its first
token, so it does not matter in front of the end of the line.
-/

namespace Offside

/-- Where a scanned item starts. -/
def Lexeme.start : Lexeme → Nat
  | .token t => t.span.start
  | .error e => e.span.start

namespace Layout

/-! ## Where scanned items start -/

section

variable {s : Layout} {p : Piece} {ps qs : List Piece} {x : Lexeme}

/-- The indentation of a line starts where the line's first token does. -/
theorem start_indentation (s : Layout) : ∀ x ∈ s.indentation, x.start = s.offset := by
  have hdedents (count : Nat) :
      ∀ x ∈ List.replicate count (Lexeme.token s.dedentAt), x.start = s.offset := by
    intro x hx
    rw [List.eq_of_mem_replicate hx]
    rfl
  by_cases hdeeper : innermost s.levels < s.width
  · rw [indentation_of_lt hdeeper]
    exact List.forall_mem_singleton.mpr rfl
  · by_cases hfits : innermost (closeTo s.width s.levels) = s.width
    · rw [indentation_of_eq hdeeper hfits]
      exact hdedents _
    · rw [indentation_of_ne hdeeper hfits]
      exact List.forall_mem_append.mpr ⟨hdedents _, List.forall_mem_singleton.mpr rfl⟩

/-- Everything that a piece contributes starts with it. -/
theorem start_emit (s : Layout) (p : Piece) : ∀ x ∈ s.emit p, x.start = s.offset := by
  obtain ⟨role, text⟩ := p
  cases role with
  | blank => exact List.forall_mem_nil _
  | comment => exact List.forall_mem_nil _
  | stray => exact List.forall_mem_singleton.mpr rfl
  | unterminated => exact List.forall_mem_singleton.mpr rfl
  | malformed => exact List.forall_mem_singleton.mpr rfl
  | token kind =>
    by_cases hkind : kind = .newline
    · subst hkind
      by_cases hnesting : s.nesting = 0
      · rw [emit_newline hnesting]
        exact List.forall_mem_singleton.mpr rfl
      · rw [emit, if_neg hnesting]
        exact List.forall_mem_nil _
    · rw [emit_token hkind]
      refine List.forall_mem_append.mpr ⟨?_, List.forall_mem_singleton.mpr rfl⟩
      split
      · exact s.start_indentation
      · exact List.forall_mem_nil _

/-- A layout goes through a list of pieces in order. -/
theorem after_append (s : Layout) (ps qs : List Piece) :
    s.after (ps ++ qs) = (s.after ps).after qs :=
  List.foldl_append ..

/-- Pieces only move the offset on. -/
theorem offset_le_after (s : Layout) (ps : List Piece) : s.offset ≤ (s.after ps).offset := by
  rw [offset_after]
  exact Nat.le_add_right ..

/-- What some pieces contribute starts in front of what follows them. -/
theorem start_lt_of_mem_emitAll (hps : ∀ p ∈ ps, p.text ≠ []) (hx : x ∈ s.emitAll ps) :
    x.start < (s.after ps).offset := by
  induction ps generalizing s with
  | nil => cases hx
  | cons p ps ih =>
    rw [List.forall_mem_cons] at hps
    rcases List.mem_append.mp hx with hx | hx
    · have hpos := Text.byteLength_pos hps.1
      have hle := offset_le_after (s.next p) ps
      rw [offset_next] at hle
      rw [start_emit s p x hx]
      exact Nat.lt_of_lt_of_le (Nat.lt_add_of_pos_right hpos) hle
    · exact ih hps.2 hx

/-- What is left to scan starts no earlier than where the scan stands. -/
theorem offset_le_of_mem_output (hx : x ∈ s.output ps) : s.offset ≤ x.start := by
  induction ps generalizing s with
  | nil =>
    rw [output_nil, finish] at hx
    rcases List.mem_append.mp hx with hx | hx
    · rw [List.eq_of_mem_replicate hx]
      exact Nat.le_refl _
    · rw [List.mem_singleton.mp hx]
      exact Nat.le_refl _
  | cons p ps ih =>
    rw [output_cons] at hx
    rcases List.mem_append.mp hx with hx | hx
    · exact Nat.le_of_eq (start_emit s p x hx).symm
    · have hle := ih hx
      rw [offset_next] at hle
      omega

/-- A scanned item that starts inside a piece is contributed by that piece. -/
theorem mem_emit_of_start (hps : ∀ q ∈ ps, q.text ≠ []) (hx : x ∈ s.output (ps ++ p :: qs))
    (hstart : ((s.after ps).spanOf p.text).Holds x.start) : x ∈ (s.after ps).emit p := by
  obtain ⟨hlo, hhi⟩ := hstart
  rw [output_append, output_cons] at hx
  rcases List.mem_append.mp hx with hx | hx
  · have hlt := start_lt_of_mem_emitAll hps hx
    exact absurd hlo (Nat.not_le_of_lt hlt)
  · refine (List.mem_append.mp hx).resolve_right fun hx => ?_
    have hle := offset_le_of_mem_output hx
    rw [offset_next] at hle
    exact absurd hhi (Nat.not_lt_of_le hle)

end

/-! ## Blanks and comments at the end of a line -/

/-- Where the scan stands if there are other blanks on the line. -/
def withWidth (width : Nat) (s : Layout) : Layout := { s with width }

/-- Two shifts add up. -/
theorem shift_shift (lines bytes lines' bytes' : Nat) (s : Layout) :
    (s.shift lines bytes).shift lines' bytes' = s.shift (lines + lines') (bytes + bytes') := by
  simp [shift, Nat.add_assoc]

/-- Inert pieces emit nothing. -/
theorem emitAll_inert {qs : List Piece} (h : AllInert qs) (s : Layout) : s.emitAll qs = [] := by
  induction qs generalizing s with
  | nil => rfl
  | cons q qs ih =>
    obtain ⟨hq, hqs⟩ := List.forall_mem_cons.mp h
    have hemit : s.emit q = [] := by rcases hq with hrole | hrole <;> simp [emit, hrole]
    rw [emitAll, hemit, ih hqs, List.nil_append]

/-- Behind blanks and comments the scan stands further on, with another width. -/
theorem after_inert {qs : List Piece} (h : AllInert qs) (s : Layout) :
    ∃ width, s.after qs =
      (s.shift (Text.lineBreaks (qs.flatMap Piece.text))
        (Text.byteLength (qs.flatMap Piece.text))).withWidth width := by
  induction qs generalizing s with
  | nil => exact ⟨s.width, rfl⟩
  | cons q qs ih =>
    obtain ⟨hq, hqs⟩ := List.forall_mem_cons.mp h
    have hnext : ∃ width, s.next q =
        (s.shift (Text.lineBreaks q.text) (Text.byteLength q.text)).withWidth width := by
      rcases hq with hrole | hrole
      · exact ⟨s.width + blankWidth q.text, by simp [next, hrole, shift, withWidth]⟩
      · exact ⟨s.width, by simp [next, hrole, shift, withWidth]⟩
    obtain ⟨width, hwidth⟩ := hnext
    obtain ⟨width', hwidth'⟩ := ih hqs (s.next q)
    refine ⟨width', ?_⟩
    change (s.next q).after qs = _
    rw [hwidth', hwidth, List.flatMap_cons, Text.lineBreaks_append, Text.byteLength_append,
      ← shift_shift]
    rfl

/-- In front of a line break, or at the end, the width of the blanks does not matter. -/
theorem output_withWidth {rest : List Char} (hrest : LineEnds rest) (width : Nat) (s : Layout) :
    (s.withWidth width).output (pieces rest) = s.output (pieces rest) := by
  cases rest with
  | nil =>
    rw [pieces_nil]
    rfl
  | cons c rest =>
    obtain rfl : c = '\n' := hrest c rfl
    rw [pieces_cons]
    rfl

/-- Blanks and a comment at the end of a line only move what follows. -/
theorem output_inert {inert rest : List Char} (hinert : Inert inert) (hrest : LineEnds rest)
    (s : Layout) :
    s.output (pieces (inert ++ rest)) =
      (s.shift (Text.lineBreaks inert) (Text.byteLength inert)).output (pieces rest) := by
  obtain ⟨qs, htext, hall, hqs⟩ := pieces_inert hinert
  obtain ⟨width, hafter⟩ := s.after_inert hall
  rw [hqs rest hrest, output_append, emitAll_inert hall, List.nil_append, hafter, htext,
    output_withWidth hrest]

/-- Where the scan stands at the start of a line outside brackets. -/
structure AtLineStart (s : Layout) : Prop where
  width : s.width = 0
  lineStart : s.lineStart = true
  nesting : s.nesting = 0

/-- A line of blanks and a comment contributes its end and only moves what follows. -/
theorem AtLineStart.output_inert {s : Layout} (hs : s.AtLineStart) {inert : List Char}
    (hinert : Inert inert) (rest : List Char) :
    ∃ t, t.kind = .newline ∧
      s.output (pieces (inert ++ '\n' :: rest)) =
        .token t :: (s.shift (Text.lineBreaks (inert ++ ['\n']))
          (Text.byteLength (inert ++ ['\n']))).output (pieces rest) := by
  let u := s.shift (Text.lineBreaks inert) (Text.byteLength inert)
  have hemit : u.emit ⟨.token .newline, ['\n']⟩ = _ := emit_newline hs.nesting
  have hnext : u.next ⟨.token .newline, ['\n']⟩ =
      s.shift (Text.lineBreaks (inert ++ ['\n'])) (Text.byteLength (inert ++ ['\n'])) := by
    rw [Text.lineBreaks_append, Text.byteLength_append, ← shift_shift]
    simp [next, shift, u, hs.width, hs.lineStart]
  refine ⟨⟨.newline, "\\n", u.line, u.spanOf ['\n']⟩, rfl, ?_⟩
  rw [Layout.output_inert hinert (by simp [LineEnds]), pieces_newline, output_cons, hemit, hnext]
  rfl

end Layout

/-! ## Insertions into a scan -/

/-- A scanned item, moved if it starts at the offset or behind it. -/
def Lexeme.shiftFrom (offset lines bytes : Nat) (x : Lexeme) : Lexeme :=
  if offset ≤ x.start then x.shift lines bytes else x

section

variable {offset lines bytes : Nat} {xs : List Lexeme}

/-- Lexemes in front of the offset stay. -/
theorem map_shiftFrom_of_lt (h : ∀ x ∈ xs, x.start < offset) :
    xs.map (Lexeme.shiftFrom offset lines bytes) = xs := by
  refine (List.map_congr_left fun x hx => ?_).trans (List.map_id xs)
  exact if_neg (Nat.not_le_of_lt (h x hx))

/-- Lexemes from the offset on are shifted. -/
theorem map_shiftFrom_of_le (h : ∀ x ∈ xs, offset ≤ x.start) :
    xs.map (Lexeme.shiftFrom offset lines bytes) = xs.map (Lexeme.shift lines bytes) :=
  List.map_congr_left fun x hx => if_pos (h x hx)

end

/-- How inserted text changes what is scanned: what starts behind the insertion moves, and a new
line brings a line end, behind another one or at the start. -/
inductive Spliced (offset lines bytes : Nat) : List Lexeme → List Lexeme → Prop
  | inLine {xs : List Lexeme} :
    Spliced offset lines bytes xs (xs.map (Lexeme.shiftFrom offset lines bytes))
  | first {t : Token} {xs : List Lexeme} : t.kind = .newline →
    Spliced offset lines bytes xs (.token t :: xs.map (Lexeme.shiftFrom offset lines bytes))
  | newLine {before behind : List Lexeme} {n t : Token} : n.kind = .newline → t.kind = .newline →
    Spliced offset lines bytes ((before ++ [Lexeme.token n]) ++ behind)
      ((before ++ [Lexeme.token n]).map (Lexeme.shiftFrom offset lines bytes) ++
        .token t :: behind.map (Lexeme.shiftFrom offset lines bytes))

section

variable {offset lines bytes : Nat} {before behind : List Lexeme}

/-- An insertion inside a line shifts what lies behind it. -/
theorem spliced_inLine (hbefore : ∀ x ∈ before, x.start < offset)
    (hbehind : ∀ x ∈ behind, offset ≤ x.start) :
    Spliced offset lines bytes (before ++ behind)
      (before ++ behind.map (Lexeme.shift lines bytes)) := by
  have hmap : before ++ behind.map (Lexeme.shift lines bytes) =
      (before ++ behind).map (Lexeme.shiftFrom offset lines bytes) := by
    rw [List.map_append, map_shiftFrom_of_lt hbefore, map_shiftFrom_of_le hbehind]
  rw [hmap]
  exact .inLine

/-- An insertion at a line boundary may add a newline token in front of what it shifts. -/
theorem spliced_newLine (hbefore : ∀ x ∈ before, x.start < offset)
    (hbehind : ∀ x ∈ behind, offset ≤ x.start) {t : Token} (ht : t.kind = .newline)
    (hline : before = [] ∨ ∃ xs n, before = xs ++ [.token n] ∧ n.kind = .newline) :
    Spliced offset lines bytes (before ++ behind)
      (before ++ .token t :: behind.map (Lexeme.shift lines bytes)) := by
  have hmap : before ++ .token t :: behind.map (Lexeme.shift lines bytes) =
      before.map (Lexeme.shiftFrom offset lines bytes) ++
        .token t :: behind.map (Lexeme.shiftFrom offset lines bytes) := by
    rw [map_shiftFrom_of_lt hbefore, map_shiftFrom_of_le hbehind]
  rw [hmap]
  rcases hline with rfl | ⟨xs, n, rfl, hn⟩
  · exact .first ht
  · exact .newLine hn ht

end

/-- The lexemes of a text are the output of the fresh layout on its pieces. -/
theorem lexemes_eq_output (cs : List Char) : lexemes cs = Layout.output {} (pieces cs) :=
  lexemes_eq cs

/-- No piece is empty. -/
theorem text_ne_nil {cs : List Char} {p : Piece} (hp : p ∈ pieces cs) : p.text ≠ [] := by
  have hproper := allProper_pieces cs
  generalize pieces cs = ps at hp hproper
  induction ps with
  | nil => cases hp
  | cons q ps ih =>
    obtain ⟨hq, -, hps⟩ := hproper
    rcases List.mem_cons.mp hp with rfl | hp
    · exact hq
    · exact ih hp hps

/-- The pieces of a text that leaves no string open, up to the blanks and the comment at its end. -/
structure Closed (front : List Char) (ps : List Piece) (tail : List Char) : Prop where
  text : front = ps.flatMap Piece.text ++ tail
  inert : Inert tail
  append : ∀ rest, Piece.Blunt rest → pieces (front ++ rest) = ps ++ pieces (tail ++ rest)

namespace Closed

variable {front tail inert rest : List Char} {ps : List Piece}

/-- No piece of a closed front is empty. -/
theorem text_ne_nil (h : Closed front ps tail) : ∀ p ∈ ps, p.text ≠ [] := by
  intro p hp
  have hmem : p ∈ pieces (front ++ []) := by
    rw [h.append [] (by simp [Piece.Blunt])]
    exact List.mem_append_left _ hp
  exact Offside.text_ne_nil hmem

/-- The pieces and the tail measure the whole closed front. -/
theorem offset_after_add (h : Closed front ps tail) :
    (Layout.after {} ps).offset + Text.byteLength tail = Text.byteLength front := by
  rw [Layout.offset_after, h.text, Text.byteLength_append]
  exact congrArg (· + _) (Nat.zero_add _)

/-- Behind a closed front, inert text only shifts the rest of its line. -/
theorem lexemes_eq (h : Closed front ps tail) (hinert : Inert inert) (hrest : LineEnds rest) :
    lexemes (front ++ (inert ++ rest)) = Layout.emitAll {} ps ++
      ((Layout.after {} ps).shift (Text.lineBreaks (tail ++ inert))
        (Text.byteLength (tail ++ inert))).output (pieces rest) := by
  rw [lexemes_eq_output, h.append _ (Piece.blunt_inert hinert hrest), ← List.append_assoc,
    Layout.output_append, Layout.output_inert (h.inert.append hinert) hrest]

/-- Blanks and a comment in front of the end of a line. -/
theorem spliced (h : Closed front ps tail) (hinert : Inert inert) (hrest : LineEnds rest) :
    Spliced (Text.byteLength front) (Text.lineBreaks inert) (Text.byteLength inert)
      (lexemes (front ++ rest)) (lexemes (front ++ (inert ++ rest))) := by
  let s := (Layout.after {} ps).shift (Text.lineBreaks tail) (Text.byteLength tail)
  have hoffset : s.offset = Text.byteLength front := h.offset_after_add
  have hbare : lexemes (front ++ rest) = Layout.emitAll {} ps ++ s.output (pieces rest) := by
    have hnil : Inert [] := .blanks (by simp)
    have hlexemes := h.lexemes_eq hnil hrest
    rw [List.append_nil] at hlexemes
    exact hlexemes
  have hmoved : lexemes (front ++ (inert ++ rest)) = Layout.emitAll {} ps ++
      (s.output (pieces rest)).map
        (Lexeme.shift (Text.lineBreaks inert) (Text.byteLength inert)) := by
    rw [h.lexemes_eq hinert hrest, Text.lineBreaks_append, Text.byteLength_append,
      ← Layout.shift_shift, Layout.output_shift]
  rw [hbare, hmoved]
  refine spliced_inLine (fun x hx => ?_) fun x hx => hoffset ▸ Layout.offset_le_of_mem_output hx
  have hlt := Layout.start_lt_of_mem_emitAll h.text_ne_nil hx
  have hadd := h.offset_after_add
  omega

/-- A line break behind such a text is a piece of its own. -/
theorem exists_pieces_newline (h : Closed front ps tail) :
    ∃ qs, (Layout.after {} qs).offset = Text.byteLength front ∧
      ∀ rest, pieces (front ++ '\n' :: rest) = qs ++ ⟨.token .newline, ['\n']⟩ :: pieces rest := by
  obtain ⟨qs, htail, -, hqs⟩ := pieces_inert h.inert
  refine ⟨ps ++ qs, ?_, fun rest => ?_⟩
  · rw [Layout.offset_after, List.flatMap_append, htail, ← h.text]
    exact Nat.zero_add _
  · have hends : LineEnds ('\n' :: rest) := by simp [LineEnds]
    rw [h.append _ (Piece.blunt_of_lineEnds hends), hqs _ hends, pieces_newline,
      ← List.append_assoc]

end Closed

/-- A text behind which a line starts, outside brackets and strings. -/
structure EndsLine (front : List Char) (ps : List Piece) : Prop where
  append : ∀ rest, pieces (front ++ rest) = ps ++ pieces rest
  atLineStart : (Layout.after {} ps).AtLineStart
  newline : Layout.emitAll {} ps = [] ∨
    ∃ xs n, Layout.emitAll {} ps = xs ++ [.token n] ∧ n.kind = .newline

namespace EndsLine

variable {front inert : List Char} {ps : List Piece}

/-- The empty text ends a line. -/
theorem nil : EndsLine [] [] := ⟨fun _ => rfl, ⟨rfl, rfl, rfl⟩, .inl rfl⟩

/-- A line break outside brackets and strings. -/
theorem of_newline
    (h : ∀ rest, pieces (front ++ '\n' :: rest) = ps ++ ⟨.token .newline, ['\n']⟩ :: pieces rest)
    (hnesting : (Layout.after {} ps).nesting = 0) :
    EndsLine (front ++ ['\n']) (ps ++ [⟨.token .newline, ['\n']⟩]) := by
  have hfinal : (Layout.after {} (ps ++ [⟨.token .newline, ['\n']⟩])).nesting = 0 := by
    rw [Layout.after_append]
    exact hnesting
  obtain ⟨hmargin, n, hemit, hn⟩ := Layout.after_line_break {} ps hfinal
  refine ⟨fun rest => ?_, ⟨?_, ?_, hfinal⟩, .inr ⟨Layout.emitAll {} ps, n, ?_, hn⟩⟩
  · rw [List.append_assoc, List.singleton_append, h rest, List.append_assoc,
      List.singleton_append]
  · rw [hmargin]
  · rw [hmargin]
  · rw [Layout.emitAll_append, hemit]

/-- A text that ends a line is cut into its own pieces. -/
theorem pieces_eq (h : EndsLine front ps) : pieces front = ps := by
  have happend := h.append []
  rwa [List.append_nil, pieces_nil, List.append_nil] at happend

/-- Its pieces measure the whole of it. -/
theorem offset_after (h : EndsLine front ps) :
    (Layout.after {} ps).offset = Text.byteLength front := by
  rw [Layout.offset_after, ← h.pieces_eq, flatMap_text_pieces]
  exact Nat.zero_add _

/-- A line of its own. -/
theorem spliced (h : EndsLine front ps) (hinert : Inert inert) (rest : List Char) :
    Spliced (Text.byteLength front) (Text.lineBreaks (inert ++ ['\n']))
      (Text.byteLength (inert ++ ['\n'])) (lexemes (front ++ rest))
      (lexemes (front ++ (inert ++ '\n' :: rest))) := by
  obtain ⟨t, ht, houtput⟩ := h.atLineStart.output_inert hinert rest
  rw [lexemes_eq_output, lexemes_eq_output, h.append, h.append, Layout.output_append,
    Layout.output_append, houtput, Layout.output_shift]
  refine spliced_newLine (fun x hx => ?_) (fun x hx => ?_) ht h.newline
  · rw [← h.offset_after]
    exact Layout.start_lt_of_mem_emitAll (fun p hp => text_ne_nil (h.pieces_eq ▸ hp)) hx
  · rw [← h.offset_after]
    exact Layout.offset_le_of_mem_output hx

end EndsLine

end Offside
