import Offside.Proofs.Cutting
import Offside.Proofs.Joining

/-!
# Scanning from another place

What a scan yields depends on the text in front only through where the scan stands there. A position
further on moves all its tokens. Levels of indentation that are still open are closed in front of
the first token that is not the end of a line, if that token stands at the left margin.
-/

namespace Offside

/-- A token moved by a number of lines and bytes. -/
def Token.shift (lines bytes : Nat) (t : Token) : Token :=
  { t with line := t.line + lines, span := ⟨t.span.start + bytes, t.span.stop + bytes⟩ }

/-- Shifting a token only moves it. -/
theorem isMove_shift (lines bytes : Nat) : IsMove (Token.shift lines bytes) :=
  ⟨fun _ => rfl, fun _ => rfl⟩

/-- Token lexemes determine their tokens. -/
theorem map_token_injective {ts us : List Token}
    (h : ts.map Lexeme.token = us.map Lexeme.token) : ts = us :=
  (List.map_inj_right fun _ _ heq => Lexeme.token.inj heq).mp h

/-- One token lexeme comes of one token. -/
theorem eq_singleton_of_map_token {ts : List Token} {t : Token}
    (h : ts.map Lexeme.token = [.token t]) : ts = [t] :=
  map_token_injective h

/-- A scanned item moved by a number of lines and bytes. -/
def Lexeme.shift (lines bytes : Nat) : Lexeme → Lexeme
  | .token t => .token (t.shift lines bytes)
  | .error e =>
    .error { e with line := e.line + lines, span := ⟨e.span.start + bytes, e.span.stop + bytes⟩ }

namespace Layout

/-- Where the scan stands if there are further lines and bytes in front. -/
def shift (lines bytes : Nat) (s : Layout) : Layout :=
  { s with line := s.line + lines, offset := s.offset + bytes }

/-- The token at the end of a source. -/
def endAt (s : Layout) : Token := ⟨.endOfInput, "", s.line, .point s.offset⟩

/-- What the rest of a scan yields, the end included. -/
def output (s : Layout) (ps : List Piece) : List Lexeme := s.emitAll ps ++ (s.after ps).finish

/-- Without pieces the output is the end of the stream. -/
theorem output_nil (s : Layout) : s.output [] = s.finish := rfl

/-- The output of a piece stands in front of the output behind it. -/
theorem output_cons (s : Layout) (p : Piece) (ps : List Piece) :
    s.output (p :: ps) = s.emit p ++ (s.next p).output ps :=
  List.append_assoc ..

/-- Emission goes through a list of pieces in order. -/
theorem emitAll_append (s : Layout) (ps qs : List Piece) :
    s.emitAll (ps ++ qs) = s.emitAll ps ++ (s.after ps).emitAll qs := by
  induction ps generalizing s with
  | nil => rfl
  | cons p ps ih => simp [emitAll, ih, after]

/-- So does the output. -/
theorem output_append (s : Layout) (ps qs : List Piece) :
    s.output (ps ++ qs) = s.emitAll ps ++ (s.after ps).output qs := by
  simp [output, emitAll_append, after]

/-- A wider line opens one level. -/
theorem indentation_of_lt {s : Layout} (h : innermost s.levels < s.width) :
    s.indentation = [.token s.indentAt] :=
  if_pos h

/-- A line that fits an outer level closes the levels above it. -/
theorem indentation_of_eq {s : Layout} (h : ¬innermost s.levels < s.width)
    (hfits : innermost (closeTo s.width s.levels) = s.width) :
    s.indentation =
      List.replicate (s.levels.length - (closeTo s.width s.levels).length) (.token s.dedentAt) :=
  (if_neg h).trans (if_pos hfits)

/-- A line that fits no level closes the wider ones and is reported. -/
theorem indentation_of_ne {s : Layout} (h : ¬innermost s.levels < s.width)
    (hfits : innermost (closeTo s.width s.levels) ≠ s.width) :
    s.indentation =
      List.replicate (s.levels.length - (closeTo s.width s.levels).length) (.token s.dedentAt) ++
        [.error ⟨.inconsistentDedent, s.line, .point s.offset⟩] :=
  (if_neg h).trans (if_neg hfits)

/-! ## Positions -/

section

variable (lines bytes : Nat) (s : Layout)

/-- Shifting a layout keeps its levels. -/
@[simp] theorem shift_levels : (s.shift lines bytes).levels = s.levels := rfl

/-- It keeps the width of the margin. -/
@[simp] theorem shift_width : (s.shift lines bytes).width = s.width := rfl

/-- It keeps whether the line has just started. -/
@[simp] theorem shift_lineStart : (s.shift lines bytes).lineStart = s.lineStart := rfl

/-- It keeps the bracket nesting. -/
@[simp] theorem shift_nesting : (s.shift lines bytes).nesting = s.nesting := rfl

/-- A shifted layout places its dedents as far on. -/
@[simp] theorem token_shift_dedentAt :
    (Lexeme.token s.dedentAt).shift lines bytes = .token (s.shift lines bytes).dedentAt := rfl

/-- A shifted layout indents as before, as far on. -/
theorem indentation_shift :
    (s.shift lines bytes).indentation = s.indentation.map (Lexeme.shift lines bytes) := by
  by_cases hdeeper : innermost s.levels < s.width
  · rw [indentation_of_lt hdeeper, indentation_of_lt (s := s.shift lines bytes) hdeeper]
    rfl
  · by_cases hfits : innermost (closeTo s.width s.levels) = s.width
    · rw [indentation_of_eq hdeeper hfits,
        indentation_of_eq (s := s.shift lines bytes) hdeeper hfits]
      simp
    · rw [indentation_of_ne hdeeper hfits,
        indentation_of_ne (s := s.shift lines bytes) hdeeper hfits]
      simp
      rfl

/-- A shifted layout measures spans as far on. -/
theorem spanOf_shift (text : List Char) :
    (s.shift lines bytes).spanOf text =
      ⟨(s.spanOf text).start + bytes, (s.spanOf text).stop + bytes⟩ := by
  simp [spanOf, shift, Nat.add_right_comm]

/-- A shifted layout emits the same lexemes, as far on. -/
theorem emit_shift (p : Piece) :
    (s.shift lines bytes).emit p = (s.emit p).map (Lexeme.shift lines bytes) := by
  unfold emit
  simp only [spanOf_shift, indentation_shift, shift_nesting, shift_lineStart]
  split
  · rfl
  · rfl
  · rfl
  · rfl
  · rfl
  · split <;> rfl
  · split <;> simp [Lexeme.shift, Token.shift, shift]

/-- A shifted layout goes on to the shifted next one. -/
theorem next_shift (p : Piece) :
    (s.shift lines bytes).next p = (s.next p).shift lines bytes := by
  unfold next
  split <;> simp [shift, Nat.add_right_comm]
  rfl

/-- A shifted layout ends the stream as far on. -/
theorem finish_shift :
    (s.shift lines bytes).finish = s.finish.map (Lexeme.shift lines bytes) := by
  simp [finish, shift, Lexeme.shift, Token.shift, dedentAt, Span.point]

/-- A shifted layout puts out the same stream, as far on. -/
theorem output_shift (ps : List Piece) :
    (s.shift lines bytes).output ps = (s.output ps).map (Lexeme.shift lines bytes) := by
  induction ps generalizing s with
  | nil => exact finish_shift lines bytes s
  | cons p ps ih => rw [output_cons, output_cons, emit_shift, next_shift, ih, List.map_append]

end

/-! ## Steps -/

section

variable {s : Layout} {kind : Kind} {text : List Char}

/-- A newline outside brackets is one token. -/
theorem emit_newline (h : s.nesting = 0) :
    s.emit ⟨.token .newline, text⟩ = [.token ⟨.newline, "\\n", s.line, s.spanOf text⟩] :=
  if_pos h

/-- Any other token comes behind the indentation of its line. -/
theorem emit_token (h : kind ≠ .newline) :
    s.emit ⟨.token kind, text⟩ =
      (if s.lineStart then s.indentation else []) ++
        [.token ⟨kind, String.ofList text, s.line, s.spanOf text⟩] := by
  cases kind with
  | newline => exact absurd rfl h
  | _ => rfl

/-- Behind a token the line has started, and brackets are counted. -/
theorem next_token (h : kind ≠ .newline) :
    s.next ⟨.token kind, text⟩ =
      { s with
        offset := s.offset + Text.byteLength text
        line := s.line + Text.lineBreaks text
        levels := if s.lineStart then reindent s.width s.levels else s.levels
        lineStart := false
        nesting := nestingAfter s.nesting kind } := by
  cases kind with
  | newline => exact absurd rfl h
  | _ => rfl

end

/-! ## Open levels -/

/-- Where the scan stands if there are other open levels. -/
def withLevels (levels : List Nat) (s : Layout) : Layout := { s with levels }

/-- A line without margin closes every level. -/
theorem closeTo_zero {levels : List Nat} (h : ∀ width ∈ levels, 0 < width) :
    closeTo 0 levels = [] := by
  induction levels with
  | nil => rfl
  | cons width levels ih =>
    rw [closeTo, List.dropWhile_cons_of_pos (by simpa using h width List.mem_cons_self)]
    exact ih fun width hwidth => h width (List.mem_cons_of_mem _ hwidth)

/-- A first token at the left margin closes all levels. -/
theorem indentation_margin {s : Layout} (h : ∀ width ∈ s.levels, 0 < width) (hwidth : s.width = 0) :
    s.indentation = List.replicate s.levels.length (.token s.dedentAt) := by
  have hclose : closeTo s.width s.levels = [] := by rw [hwidth, closeTo_zero h]
  rw [indentation_of_eq (by omega) (by rw [hclose, hwidth]; rfl), hclose]
  simp

/-- It leaves no level open. -/
theorem reindent_margin {levels : List Nat} (h : ∀ width ∈ levels, 0 < width) :
    reindent 0 levels = [] := by
  rw [reindent, if_neg (Nat.not_lt_zero _), closeTo_zero h]

/-- A first token without margin comes behind one dedent for each level. -/
theorem emit_margin {s : Layout} {kind : Kind} {text : List Char} (hkind : kind ≠ .newline)
    (hstart : s.lineStart = true) (h : ∀ width ∈ s.levels, 0 < width) (hwidth : s.width = 0) :
    s.emit ⟨.token kind, text⟩ =
      (List.replicate s.levels.length s.dedentAt ++
        [(⟨kind, String.ofList text, s.line, s.spanOf text⟩ : Token)]).map .token := by
  rw [emit_token hkind, if_pos hstart, indentation_margin h hwidth]
  simp

/-- Behind a first token at the left margin no level is open. -/
theorem next_withLevels {levels : List Nat} (hpositive : ∀ width ∈ levels, 0 < width) {s : Layout}
    {kind : Kind} {text : List Char} (hkind : kind ≠ .newline) (hlevels : s.levels = [])
    (hstart : s.lineStart = true) (hwidth : s.width = 0) :
    (s.withLevels levels).next ⟨.token kind, text⟩ = s.next ⟨.token kind, text⟩ := by
  rw [next_token hkind, next_token hkind]
  simp only [withLevels, hstart, hwidth, hlevels, if_true, reindent_margin hpositive]
  rfl

/-- A first token that is not indented stands at the left margin. -/
theorem width_eq_zero {s : Layout} {kind : Kind} {text : List Char} {ps : List Piece}
    {ts : List Token} (hkind : kind ≠ .newline) (hlevels : s.levels = [])
    (hstart : s.lineStart = true)
    (hts : s.emit ⟨.token kind, text⟩ ++ (s.next ⟨.token kind, text⟩).output ps = ts.map .token)
    (hindent : leads (· == .indent) (dropNewlines ts) = false) : s.width = 0 := by
  refine Nat.eq_zero_of_not_pos fun hpos => ?_
  have hdeeper : innermost s.levels < s.width := by rwa [hlevels]
  rw [emit_token hkind, if_pos hstart, indentation_of_lt hdeeper] at hts
  cases ts with
  | nil => cases hts
  | cons t ts =>
    obtain ⟨ht, -⟩ := List.cons.inj hts
    cases ht
    rw [dropNewlines_of_not_leads rfl] at hindent
    cases hindent

/-- Tokens, and the same tokens with dedents behind the ends of lines at the front. -/
def ClosedInFront (count : Nat) (ts us : List Token) : Prop :=
  ∃ ns ds behind, ts = ns ++ behind ∧ us = ns ++ (ds ++ behind) ∧ AreNewlines ns ∧
    leads (· == .newline) behind = false ∧ ds.length = count ∧ ∀ d ∈ ds, d.kind = .dedent

/-- Dedents in front of a token that is no newline close the levels there. -/
theorem ClosedInFront.margin {count : Nat} {ts : List Token} {d : Token}
    (h : leads (· == .newline) ts = false) (hd : d.kind = .dedent := by rfl) :
    ClosedInFront count ts (List.replicate count d ++ ts) :=
  ⟨[], List.replicate count d, ts, rfl, rfl, by simp [AreNewlines], h, List.length_replicate,
    fun _ hmem => List.eq_of_mem_replicate hmem ▸ hd⟩

/-- A newline in front changes nothing about where the levels close. -/
theorem ClosedInFront.newline {count : Nat} {ts us : List Token} {n : Token}
    (hn : n.kind = .newline) (h : ClosedInFront count ts us) :
    ClosedInFront count (n :: ts) (n :: us) := by
  obtain ⟨ns, ds, behind, rfl, rfl, hns, hbehind, hcount, hds⟩ := h
  exact ⟨n :: ns, ds, behind, rfl, rfl, List.forall_mem_cons.mpr ⟨hn, hns⟩, hbehind, hcount, hds⟩

/-- Levels that are open where a text starts at the left margin are closed in front of its first
token. -/
theorem output_withLevels {levels : List Nat} (hpositive : ∀ width ∈ levels, 0 < width)
    {ps : List Piece} {s : Layout} (hlevels : s.levels = []) (hstart : s.lineStart = true)
    (hnesting : s.nesting = 0) {ts : List Token} (hts : s.output ps = ts.map .token)
    (hindent : leads (· == .indent) (dropNewlines ts) = false) :
    ∃ us, (s.withLevels levels).output ps = us.map .token ∧
      ClosedInFront levels.length ts us := by
  induction ps generalizing s ts with
  | nil =>
    have hfinish : s.output [] = [Lexeme.token s.endAt] := by
      rw [output_nil, finish, hlevels]
      rfl
    obtain rfl := eq_singleton_of_map_token (hts.symm.trans hfinish)
    refine ⟨List.replicate levels.length s.dedentAt ++ [_], ?_, .margin rfl⟩
    rw [output_nil, finish, List.map_append, List.map_replicate]
    rfl
  | cons p ps ih =>
    rw [output_cons] at hts ⊢
    obtain ⟨role, text⟩ := p
    cases role with
    | blank => exact ih (s := s.next ⟨.blank, text⟩) hlevels hstart hnesting hts hindent
    | comment => exact ih (s := s.next ⟨.comment, text⟩) hlevels hstart hnesting hts hindent
    | stray =>
      cases ts with
      | nil => cases hts
      | cons t ts => cases hts
    | unterminated =>
      cases ts with
      | nil => cases hts
      | cons t ts => cases hts
    | malformed =>
      cases ts with
      | nil => cases hts
      | cons t ts => cases hts
    | token kind =>
      by_cases hkind : kind = .newline
      · subst hkind
        -- An empty line closes no level, so the dedents come behind it.
        rw [emit_newline hnesting] at hts
        rw [emit_newline (s := s.withLevels levels) hnesting]
        cases ts with
        | nil => cases hts
        | cons t ts =>
          obtain ⟨ht, hts'⟩ := List.cons.inj hts
          cases ht
          have hnext : (s.next ⟨.token .newline, text⟩).lineStart = true := by
            simp [next, hstart]
          obtain ⟨us, hus, hclosed⟩ :=
            ih (s := s.next ⟨.token .newline, text⟩) hlevels hnext hnesting hts' hindent
          refine ⟨_ :: us, congrArg _ hus, hclosed.newline rfl⟩
      · have hwidth := width_eq_zero hkind hlevels hstart hts hindent
        -- The first token closes all levels, and from here on none is open in either scan.
        rw [emit_margin hkind hstart (by simp [hlevels]) hwidth, hlevels] at hts
        cases ts with
        | nil => cases hts
        | cons t ts =>
          obtain ⟨ht, hts'⟩ := List.cons.inj hts
          cases ht
          have hrest : (s.next ⟨.token kind, text⟩).output ps = ts.map .token := hts'
          rw [emit_margin (s := s.withLevels levels) hkind hstart hpositive hwidth,
            next_withLevels hpositive hkind hlevels hstart hwidth, hrest, ← List.map_append,
            List.append_assoc]
          exact ⟨_, rfl, .margin (by simpa using hkind)⟩

end Layout

end Offside
