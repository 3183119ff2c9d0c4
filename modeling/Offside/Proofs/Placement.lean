import Offside.Proofs.Coverage
import Offside.Proofs.MovedRuns
import Offside.Proofs.Padding
import Offside.Proofs.StreamShape

/-!
# Where diagnostics point

Every scanned token and every lexical error stands at its place in the source: its span lies between
characters, its line is the number of line breaks in front, and a token quotes the text at its span.
The parser and the running program blame tokens of the source only. This follows without following
the tokens through the tree: a move that changes all other tokens leaves the parse and the run as
they are.
-/

namespace Offside

/-! ## Scanned items -/

/-- Some characters of a text at a span, with the characters behind them, and the line on which they
start. -/
def Text.Stands (cs : List Char) (line : Nat) (span : Span) (inside behind : List Char) : Prop :=
  ∃ front, cs = front ++ (inside ++ behind) ∧ byteLength front = span.start ∧
    byteLength (front ++ inside) = span.stop ∧ line = 1 + lineBreaks front

/-- How a token of this kind quotes the text at its span. -/
def Kind.quote (inside : List Char) : Kind → String
  | .newline => "\\n"
  | .indent => "<indent>"
  | .dedent => "<dedent>"
  | _ => String.ofList inside

/-- What a token says about the text at its span and behind it. -/
structure Token.Shows (t : Token) (inside behind : List Char) : Prop where
  lexeme : t.lexeme = t.kind.quote inside
  newline : t.kind = .newline → inside = ['\n']
  /-- Tokens that open or close a level and the end of the input have no text. -/
  synthesized : t.kind.isSynthesized = true → inside = []
  finish : t.kind = .endOfInput → behind = []

/-- A scanned item that stands at its place in a text. -/
def Lexeme.Stands (cs : List Char) : Lexeme → Prop
  | .token t => ∃ inside behind, Text.Stands cs t.line t.span inside behind ∧ t.Shows inside behind
  | .error e => ∃ inside behind, Text.Stands cs e.line e.span inside behind

namespace Layout

variable {s : Layout} {front rest : List Char}

/-- An empty span stands where the layout is. -/
theorem stands_point (hoffset : s.offset = Text.byteLength front)
    (hline : s.line = 1 + Text.lineBreaks front) (rest : List Char) :
    Text.Stands (front ++ rest) s.line (.point s.offset) [] rest :=
  ⟨front, rfl, hoffset.symm, by rw [List.append_nil]; exact hoffset.symm, hline⟩

/-- The span of a piece stands on the text of the piece. -/
theorem stands_spanOf (hoffset : s.offset = Text.byteLength front)
    (hline : s.line = 1 + Text.lineBreaks front) (text rest : List Char) :
    Text.Stands (front ++ (text ++ rest)) s.line (s.spanOf text) text rest :=
  ⟨front, rfl, hoffset.symm, by rw [Text.byteLength_append, ← hoffset]; rfl, hline⟩

/-- A dedent stands where the layout is. -/
theorem stands_dedentAt (hoffset : s.offset = Text.byteLength front)
    (hline : s.line = 1 + Text.lineBreaks front) (rest : List Char) :
    (Lexeme.token s.dedentAt).Stands (front ++ rest) :=
  ⟨[], rest, stands_point hoffset hline rest, rfl, nofun, fun _ => rfl, nofun⟩

/-- So does all of a line's indentation. -/
theorem stands_indentation (hoffset : s.offset = Text.byteLength front)
    (hline : s.line = 1 + Text.lineBreaks front) (rest : List Char) :
    ∀ x ∈ s.indentation, x.Stands (front ++ rest) := by
  have hdedents (count : Nat) :
      ∀ x ∈ List.replicate count (Lexeme.token s.dedentAt), x.Stands (front ++ rest) := by
    intro x hx
    rw [List.eq_of_mem_replicate hx]
    exact stands_dedentAt hoffset hline rest
  have hpoint := stands_point hoffset hline rest
  by_cases hdeeper : innermost s.levels < s.width
  · rw [indentation_of_lt hdeeper]
    refine List.forall_mem_singleton.mpr ⟨[], rest, hpoint, rfl, nofun, fun _ => rfl, nofun⟩
  · by_cases hfits : innermost (closeTo s.width s.levels) = s.width
    · rw [indentation_of_eq hdeeper hfits]
      exact hdedents _
    · rw [indentation_of_ne hdeeper hfits]
      exact List.forall_mem_append.mpr
        ⟨hdedents _, List.forall_mem_singleton.mpr ⟨[], rest, hpoint⟩⟩

/-- What a piece emits stands on the piece. -/
theorem stands_emit {p : Piece} (hp : p.Proper rest) (hoffset : s.offset = Text.byteLength front)
    (hline : s.line = 1 + Text.lineBreaks front) :
    ∀ x ∈ s.emit p, x.Stands (front ++ (p.text ++ rest)) := by
  obtain ⟨role, text⟩ := p
  have hspan := stands_spanOf hoffset hline text rest
  cases role with
  | blank => exact List.forall_mem_nil _
  | comment => exact List.forall_mem_nil _
  | stray => exact List.forall_mem_singleton.mpr ⟨text, rest, hspan⟩
  | unterminated => exact List.forall_mem_singleton.mpr ⟨text, rest, hspan⟩
  | malformed => exact List.forall_mem_singleton.mpr ⟨text, rest, hspan⟩
  | token kind =>
    by_cases hkind : kind = .newline
    · subst hkind
      by_cases hnesting : s.nesting = 0
      · rw [emit_newline hnesting]
        exact List.forall_mem_singleton.mpr ⟨text, rest, hspan, rfl, fun _ => hp, nofun, nofun⟩
      · rw [emit, if_neg hnesting]
        exact List.forall_mem_nil _
    · have hplain := (hp.of_token hkind).1
      rw [emit_token hkind]
      refine List.forall_mem_append.mpr ⟨?_, List.forall_mem_singleton.mpr ?_⟩
      · split
        · exact stands_indentation hoffset hline (text ++ rest)
        · exact List.forall_mem_nil _
      · refine ⟨text, rest, hspan, ?_, ?_, ?_, ?_⟩
        · cases kind with
          | newline => exact absurd rfl hkind
          | indent => cases hplain
          | dedent => cases hplain
          | _ => rfl
        · exact fun h => absurd h hkind
        · intro h
          rw [Kind.isSynthesized_of_isStructural hplain] at h
          cases h
        · exact fun h => absurd h (Kind.ne_of_isStructural hplain rfl)

/-- Everything that is scanned stands at its place. -/
theorem stands_output {ps : List Piece} (hps : AllProper ps)
    (hoffset : s.offset = Text.byteLength front) (hline : s.line = 1 + Text.lineBreaks front) :
    ∀ x ∈ s.output ps, x.Stands (front ++ ps.flatMap Piece.text) := by
  induction ps generalizing s front with
  | nil =>
    rw [output_nil, finish]
    refine List.forall_mem_append.mpr ⟨fun x hx => ?_, List.forall_mem_singleton.mpr ?_⟩
    · rw [List.eq_of_mem_replicate hx]
      exact stands_dedentAt hoffset hline []
    · refine ⟨[], [], stands_point hoffset hline [], rfl, fun h => ?_, fun _ => rfl, fun _ => rfl⟩
      cases h
  | cons p ps ih =>
    obtain ⟨-, hp, hps⟩ := hps
    have hoffset' : (s.next p).offset = Text.byteLength (front ++ p.text) := by
      rw [offset_next, hoffset, Text.byteLength_append]
    have hline' : (s.next p).line = 1 + Text.lineBreaks (front ++ p.text) := by
      rw [line_next, hline, Text.lineBreaks_append, Nat.add_assoc]
    have hrest := ih hps hoffset' hline'
    rw [List.append_assoc] at hrest
    rw [output_cons, List.flatMap_cons]
    exact List.forall_mem_append.mpr ⟨stands_emit hp hoffset hline, hrest⟩

end Layout

/-- Every lexeme of a source stands in it. -/
theorem stands_lexemes (source : String) : ∀ x ∈ lexemes source.toList, x.Stands source.toList := by
  have hall : ∀ x ∈ Layout.output {} (pieces source.toList),
      x.Stands ([] ++ (pieces source.toList).flatMap Piece.text) :=
    Layout.stands_output (allProper_pieces source.toList) rfl rfl
  rw [List.nil_append, flatMap_text_pieces] at hall
  rw [lexemes_eq]
  exact hall

/-- Every token of a scan stands in the source. -/
theorem stands_token {source : String} {t : Token} (ht : t ∈ (scan source).tokens) :
    ∃ inside behind, Text.Stands source.toList t.line t.span inside behind ∧
      t.Shows inside behind := by
  obtain ⟨x, hx, hxt⟩ := List.mem_filterMap.mp ht
  cases x with
  | token u =>
    cases hxt
    exact stands_lexemes source _ hx
  | error e => cases hxt

/-- Every error of a scan stands in the source. -/
theorem stands_error {source : String} {e : LexicalError} (he : e ∈ (scan source).errors) :
    ∃ inside behind, Text.Stands source.toList e.line e.span inside behind := by
  obtain ⟨x, hx, hxe⟩ := List.mem_filterMap.mp he
  cases x with
  | token t => cases hxe
  | error f =>
    cases hxe
    exact stands_lexemes source _ hx

/-! ## Blamed tokens -/

/-- A move that changes the line of every token but the given ones. -/
def nudgeOthers (ts : List Token) (t : Token) : Token :=
  if t ∈ ts then t else { t with line := t.line + 1 }

/-- Nudging only moves tokens. -/
theorem isMove_nudgeOthers (ts : List Token) : IsMove (nudgeOthers ts) where
  kind t := by
    rw [nudgeOthers]
    split <;> rfl
  lexeme t := by
    rw [nudgeOthers]
    split <;> rfl

/-- The tokens that are not nudged are the ones of the list. -/
theorem nudgeOthers_eq_iff {ts : List Token} {t : Token} : nudgeOthers ts t = t ↔ t ∈ ts := by
  rw [nudgeOthers]
  constructor
  · intro h
    by_contra hnot
    rw [if_neg hnot] at h
    have hline := congrArg Token.line h
    simp at hline
  · exact fun h => if_pos h

/-- A scan ends in its end of input. -/
theorem endOf_scan (source : String) :
    endOf (scan source).tokens ∈ (scan source).tokens ∧
      (endOf (scan source).tokens).kind = .endOfInput := by
  obtain ⟨body, finish, htokens, hfinish, hbody⟩ := (laid_scan source).wellShaped.ends
  have hend : endOf (scan source).tokens = finish := by
    rw [htokens]
    exact (tokensBeforeEnd_append hbody hfinish).2
  rw [hend, htokens]
  exact ⟨List.mem_append_right body List.mem_cons_self, hfinish⟩

/-- The parse of a source is left as it is by a move that leaves its tokens as they are. -/
theorem parse_nudgeOthers (source : String) :
    (parse (scan source).tokens).move (nudgeOthers (scan source).tokens) =
      parse (scan source).tokens := by
  have hmap : (scan source).tokens.map (nudgeOthers (scan source).tokens) = (scan source).tokens :=
    (List.map_congr_left fun t ht => nudgeOthers_eq_iff.mpr ht).trans (List.map_id _)
  have hpadded := Padded.map (nudgeOthers (scan source).tokens) true (scan source).tokens
  rw [hmap] at hpadded
  exact (parse_of_padded (isMove_nudgeOthers _) hpadded ⟨_, endOf_scan source⟩).symm

/-- A syntax error is blamed on a token of the source. -/
theorem blamed_mem {source : String} {e : SyntaxError}
    (he : e ∈ (parse (scan source).tokens).errors) :
    e.blamed.getD (parse (scan source).tokens).finish ∈ (scan source).tokens := by
  have herrors := congrArg Parse.errors (parse_nudgeOthers source)
  have hmoved := List.map_inj_left.mp (herrors.trans (List.map_id _).symm) e he
  have hblamed := congrArg SyntaxError.blamed hmoved
  obtain ⟨fault, _ | t⟩ := e
  · rw [parse_finish]
    exact (endOf_scan source).1
  · exact nudgeOthers_eq_iff.mp (Option.some.inj hblamed)

/-- A runtime error is blamed on a token of the source. -/
theorem token_mem_of_failed {source : String} {fuel depthLimit : Nat} {e : RuntimeError}
    {m : Machine}
    (h : runProgram fuel (check source).program (freshStart depthLimit) = .error (.failed e) m) :
    e.token ∈ (scan source).tokens := by
  have hprogram := congrArg Parse.program (parse_nudgeOthers source)
  exact nudgeOthers_eq_iff.mp (move_token_of_failed (isMove_nudgeOthers _) hprogram h)

/-! ## Diagnostics -/

/-- Any token but the last is quoted. -/
theorem Token.location_of_ne {t : Token} (h : t.kind ≠ .endOfInput) :
    t.location = " at '" ++ t.lexeme ++ "'" :=
  if_neg h

/-- Only the end of input is located at the end. -/
theorem Token.location_eq_end_iff (t : Token) :
    t.location = " at end" ↔ t.kind = .endOfInput := by
  constructor
  · intro h
    by_contra hkind
    rw [Token.location_of_ne hkind] at h
    have hchars := congrArg String.toList h
    simp at hchars
  · exact fun h => if_pos h

/-- No token is located nowhere. -/
theorem Token.location_ne_empty (t : Token) : t.location ≠ "" := by
  intro h
  by_cases hkind : t.kind = .endOfInput
  · rw [(Token.location_eq_end_iff t).mpr hkind] at h
    exact absurd h (by decide)
  · rw [Token.location_of_ne hkind] at h
    have hchars := congrArg String.toList h
    simp at hchars

/-- A diagnostic blames a token of a source, where the text at its span and the text behind it are
given. -/
structure Diagnostic.Blames (d : Diagnostic) (source : String) (t : Token)
    (inside behind : List Char) : Prop where
  token : t ∈ (scan source).tokens ∧ d.line = t.line ∧ d.span = t.span
  /-- The end of the input, where there is no text. -/
  finish : d.location = " at end" ↔ t.kind = .endOfInput
  atEnd : t.kind = .endOfInput → inside = [] ∧ behind = []
  /-- Any other token is quoted: a line end by its escape sequence, a change of indentation by a
  name of its own, everything else as it is written. -/
  quoted : t.kind ≠ .endOfInput → d.location = " at '" ++ t.kind.quote inside ++ "'"
  newline : t.kind = .newline → inside = ['\n']
  margin : t.kind = .indent ∨ t.kind = .dedent → inside = []

/-- A diagnostic points at its place in a source. -/
structure Diagnostic.PointsInto (source : String) (d : Diagnostic) : Prop where
  bounds : d.span.start ≤ d.span.stop ∧ d.span.stop ≤ source.utf8ByteSize
  /-- Only lexical errors quote nothing. -/
  unlocated : d.location = "" ↔ d.stage = .lex
  /-- The span lies between characters, on the line that is told, and is that of the blamed
  token. -/
  place : ∃ inside behind, Text.Stands source.toList d.line d.span inside behind ∧
    (d.stage ≠ .lex → ∃ t, d.Blames source t inside behind)

/-- What stands in a source has a span inside it. -/
theorem Text.Stands.bounds {source : String} {line : Nat} {span : Span} {inside behind : List Char}
    (h : Text.Stands source.toList line span inside behind) :
    span.start ≤ span.stop ∧ span.stop ≤ source.utf8ByteSize := by
  obtain ⟨front, hsource, hstart, hstop, -⟩ := h
  have hlength := congrArg Text.byteLength hsource
  rw [Text.byteLength_toList] at hlength
  simp only [Text.byteLength_append] at hstop hlength
  omega

/-- A lexical error points into its source. -/
theorem LexicalError.pointsInto {source : String} {e : LexicalError}
    (he : e ∈ (scan source).errors) : e.diagnostic.PointsInto source := by
  obtain ⟨inside, behind, hplace⟩ := stands_error he
  exact ⟨hplace.bounds, iff_of_true rfl rfl, inside, behind, hplace, fun h => absurd rfl h⟩

/-- What is blamed on a token of a source points at it. -/
theorem Diagnostic.pointsInto_atToken {source : String} {t : Token}
    (ht : t ∈ (scan source).tokens) {stage : Stage} (hstage : stage ≠ .lex) (message : String) :
    (Diagnostic.atToken stage t message).PointsInto source := by
  obtain ⟨inside, behind, hplace, hshows⟩ := stands_token ht
  refine ⟨hplace.bounds, iff_of_false (Token.location_ne_empty t) hstage, inside, behind, hplace,
    fun _ => ⟨t, ?_⟩⟩
  exact {
    token := ⟨ht, rfl, rfl⟩
    finish := Token.location_eq_end_iff t
    atEnd := fun hkind => ⟨hshows.synthesized (by rw [hkind]; rfl), hshows.finish hkind⟩
    quoted := fun hkind => by rw [← hshows.lexeme]; exact Token.location_of_ne hkind
    newline := hshows.newline
    margin := by
      rintro (hkind | hkind)
      · exact hshows.synthesized (by rw [hkind]; rfl)
      · exact hshows.synthesized (by rw [hkind]; rfl) }

/-- Every static diagnostic points into its source. -/
theorem pointsInto_check {source : String} {d : Diagnostic}
    (hd : d ∈ (check source).diagnostics) : d.PointsInto source := by
  rcases List.mem_append.mp hd with hd | hd
  · obtain ⟨e, he, rfl⟩ := List.mem_map.mp hd
    exact LexicalError.pointsInto he
  · obtain ⟨e, he, rfl⟩ := List.mem_map.mp hd
    exact Diagnostic.pointsInto_atToken (blamed_mem he) (by simp) _

/-- Every diagnostic of a source that is run on its own points at its place in the source, whatever
it is about. -/
theorem diagnostics_pointInto {fuel depthLimit : Nat} {source : String} {outcome : Outcome}
    {text : String} (h : runAlone fuel depthLimit source = some (outcome, text)) :
    ∀ d ∈ outcome.diagnostics, d.PointsInto source := by
  intro d hd
  simp only [runAlone, Option.bind_eq_bind, Option.bind_eq_some_iff] at h
  obtain ⟨⟨found, session⟩, hrun, hfound⟩ := h
  cases hfound
  rw [Session.run_eq] at hrun
  split at hrun
  next =>
    change Session.conclude (runProgram fuel (check source).program (freshStart depthLimit)) =
      some (found, session) at hrun
    cases hend : runProgram fuel (check source).program (freshStart depthLimit) with
    | ok flow m =>
      rw [hend] at hrun
      cases hrun
      cases hd
    | error halt m =>
      rw [hend] at hrun
      cases halt with
      | exhausted => cases hrun
      | failed e =>
        cases hrun
        obtain rfl := List.mem_singleton.mp hd
        exact Diagnostic.pointsInto_atToken (token_mem_of_failed hend) (by simp) _
  next =>
    cases hrun
    exact pointsInto_check hd

/-- A runtime error behind a string of two lines. -/
theorem diagnostics_pointInto_undefined :
    ∃ outcome text, runAlone 9 10 "x = \"é\n\"\nprint(y)" = some (outcome, text) ∧
      outcome.diagnostics =
        [⟨.runtime, 3, " at 'y'", "Undefined variable 'y'.", ⟨16, 17⟩⟩] ∧
      ∀ d ∈ outcome.diagnostics, d.PointsInto "x = \"é\n\"\nprint(y)" := by
  let source := "x = \"é\n\"\nprint(y)"
  have hcheck : check source = checkUpTo 30 source := check_eq_checkUpTo (by decide +kernel)
  have hclean : (check source).diagnostics = [] := by
    rw [hcheck]
    decide +kernel
  have hend : ((Session.new 10 {}).run 9 source).map Prod.fst = some ⟨.runtimeError,
      [⟨.runtime, 3, " at 'y'", "Undefined variable 'y'.", ⟨16, 17⟩⟩]⟩ := by
    rw [Session.run_of_clean hclean, hcheck]
    decide +kernel
  obtain ⟨⟨outcome, session⟩, hrun, hfound⟩ := Option.map_eq_some_iff.mp hend
  have halone : runAlone 9 10 source = some (outcome, session.textFrom 0) := by
    simp only [runAlone, hrun]
    rfl
  exact ⟨outcome, _, halone, congrArg Outcome.diagnostics hfound, diagnostics_pointInto halone⟩

end Offside
