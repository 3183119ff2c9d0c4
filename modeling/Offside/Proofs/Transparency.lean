import Offside.Proofs.Insertion
import Offside.Proofs.Placement

/-!
# Blank lines, comments and blanks at the end of a line

Text that is no token may be inserted as a line of its own, in front of the end of a line and at the
end of a source. The program stays the same up to the positions of its tokens, the diagnostics stay
the same up to their positions, and a run prints the same. The one token that such an insertion can
bring is a line end where the parser skips line ends.
-/

namespace Offside

/-! ## Positions behind an insertion -/

section

variable (offset lines bytes : Nat)

/-- A token, moved if it starts at the offset or behind it. -/
def Token.shiftFrom (t : Token) : Token :=
  if offset ≤ t.span.start then t.shift lines bytes else t

/-- A diagnostic, moved if it points at the offset or behind it. -/
def Diagnostic.shiftFrom (d : Diagnostic) : Diagnostic :=
  if offset ≤ d.span.start then
    { d with line := d.line + lines, span := ⟨d.span.start + bytes, d.span.stop + bytes⟩ }
  else d

/-- An outcome with moved diagnostics. -/
def Outcome.shiftFrom (o : Outcome) : Outcome :=
  { o with diagnostics := o.diagnostics.map (Diagnostic.shiftFrom offset lines bytes) }

/-- Two sources that differ in positions only: from the offset on, everything in the second one is
moved. -/
structure OnlyMoves (source source' : String) : Prop where
  program : (check source').program =
    Stmt.moveEach (Token.shiftFrom offset lines bytes) (check source).program
  diagnostics : (check source').diagnostics =
    (check source).diagnostics.map (Diagnostic.shiftFrom offset lines bytes)
  run : ∀ fuel depthLimit, runAlone fuel depthLimit source' =
    (runAlone fuel depthLimit source).map fun (outcome, text) =>
      (outcome.shiftFrom offset lines bytes, text)

end

/-- A byte of a source lies in a string literal, whether the literal is closed or not. -/
def InString (source : String) (byte : Nat) : Prop :=
  (∃ t ∈ (scan source).tokens, (∃ contents, t.kind = .string contents) ∧ t.span.Holds byte) ∨
    ∃ e ∈ (scan source).errors, e.fault = .unterminatedString ∧ e.span.Holds byte

/-- Text that may be inserted between two parts of a source. -/
inductive Transparent (front behind : String) : String → Prop
  /-- A line of its own at the start. -/
  | firstLine {inert : String} : front = "" → Inert inert.toList →
    Transparent front behind (inert ++ "\n")
  /-- A line of its own behind the end of a line. -/
  | newLine {inert : String} {t : Token} : t ∈ (scan (front ++ behind)).tokens →
    t.kind = .newline → t.span.stop = front.utf8ByteSize → Inert inert.toList →
    Transparent front behind (inert ++ "\n")
  /-- In front of a line break outside strings. -/
  | endOfLine {inert : String} : behind.toList.head? = some '\n' →
    ¬InString (front ++ behind) front.utf8ByteSize → Inert inert.toList →
    Transparent front behind inert
  | endOfSource {inert : String} : behind = "" →
    (∀ e ∈ (scan (front ++ behind)).errors, e.fault ≠ .unterminatedString) →
    Inert inert.toList → Transparent front behind inert

/-! ## Places outside strings -/

/-- Two splits of a text at one offset are the same. -/
theorem Text.append_inj_of_byteLength {cs ds es fs : List Char} (h : cs ++ ds = es ++ fs)
    (hlength : byteLength cs = byteLength es) : cs = es ∧ ds = fs := by
  induction cs generalizing es with
  | nil =>
    obtain rfl : es = [] := by
      by_contra hne
      have hpos := byteLength_pos hne
      simp only [byteLength_nil] at hlength
      omega
    exact ⟨rfl, h⟩
  | cons c cs ih =>
    cases es with
    | nil =>
      have hpos := byteLength_pos (List.cons_ne_nil c cs)
      simp only [byteLength_nil] at hlength
      omega
    | cons e es =>
      obtain ⟨rfl, hrest⟩ := List.cons.inj h
      obtain ⟨rfl, rfl⟩ := ih hrest (by simpa using hlength)
      exact ⟨rfl, rfl⟩

/-- What a piece emits is among the lexemes. -/
theorem mem_lexemes_of_emit {cs : List Char} {ps qs : List Piece} {p : Piece} {x : Lexeme}
    (h : pieces cs = ps ++ p :: qs) (hx : x ∈ (Layout.after {} ps).emit p) : x ∈ lexemes cs := by
  rw [lexemes_eq_output, h, Layout.output_append, Layout.output_cons]
  exact List.mem_append_right _ (List.mem_append_left _ hx)

/-- A piece of an open string is scanned as a string or as an error. -/
theorem inString_of_piece {source : String} {ps qs : List Piece} {p : Piece} {byte : Nat}
    (h : pieces source.toList = ps ++ p :: qs)
    (hrole : p.role = .unterminated ∨ ∃ contents, p.role = .token (.string contents))
    (hbyte : ((Layout.after {} ps).spanOf p.text).Holds byte) : InString source byte := by
  obtain ⟨role, text⟩ := p
  rcases hrole with hrole | ⟨contents, hrole⟩
  · obtain rfl : role = .unterminated := hrole
    have hmem := mem_lexemes_of_emit h (List.mem_singleton_self _)
    exact .inr ⟨_, List.mem_filterMap.mpr ⟨_, hmem, rfl⟩, rfl, hbyte⟩
  · obtain rfl : role = .token (.string contents) := hrole
    have hemit : (Layout.after {} ps).emit ⟨.token (.string contents), text⟩ = _ :=
      Layout.emit_token (by simp)
    have hmem := mem_lexemes_of_emit h
      (hemit ▸ List.mem_append_right _ (List.mem_singleton_self _))
    exact .inl ⟨_, List.mem_filterMap.mpr ⟨_, hmem, rfl⟩, ⟨contents, rfl⟩, hbyte⟩

/-- In front of a line break no string is open, or a string holds the line break. -/
theorem closed_or_string {source : String} {front rest : List Char}
    (hsource : source.toList = front ++ '\n' :: rest) :
    (∃ ps tail, Closed front ps tail) ∨
      ∃ ps p qs, pieces source.toList = ps ++ p :: qs ∧
        (p.role = .unterminated ∨ ∃ contents, p.role = .token (.string contents)) ∧
        ((Layout.after {} ps).spanOf p.text).Holds (Text.byteLength front) := by
  obtain ⟨ps, unfinished, htext, hunfinished, happend⟩ := exists_pieces_append_of_blunt front
  cases hunfinished with
  | inert hinert => exact .inl ⟨ps, unfinished, htext, hinert, happend⟩
  | @string cs hcs =>
    obtain ⟨p, qs, more, hpieces, hp, hrole⟩ := pieces_string hcs rest
    have hblunt : Piece.Blunt ('\n' :: rest) := Piece.blunt_of_lineEnds (by simp [LineEnds])
    refine .inr ⟨ps, p, qs, ?_, hrole, ?_⟩
    · rw [hsource, happend _ hblunt, hpieces]
    · have hpos := Char.utf8Size_pos '\n'
      rw [Layout.spanOf, hp, Layout.offset_after, htext]
      simp only [Span.Holds, Text.byteLength_append, Text.byteLength_cons]
      omega

/-- At the end of a source without an unterminated string no string is open. -/
theorem exists_closed_of_terminated {source : String}
    (h : ∀ e ∈ (scan source).errors, e.fault ≠ .unterminatedString) :
    ∃ ps tail, Closed source.toList ps tail := by
  obtain ⟨ps, unfinished, htext, hunfinished, happend⟩ :=
    exists_pieces_append_of_blunt source.toList
  cases hunfinished with
  | inert hinert => exact ⟨ps, unfinished, htext, hinert, happend⟩
  | @string cs hcs =>
    have hpieces := happend [] (by simp [Piece.Blunt])
    rw [List.append_nil, List.append_nil, pieces_open hcs] at hpieces
    have hmem := mem_lexemes_of_emit hpieces (List.mem_singleton_self _)
    exact absurd rfl (h _ (List.mem_filterMap.mpr ⟨_, hmem, rfl⟩))

/-- A piece that a line end is scanned for is a line break outside brackets. -/
theorem role_of_emit {s : Layout} {p : Piece} {t : Token} (h : .token t ∈ s.emit p)
    (ht : t.kind = .newline) : p.role = .token .newline ∧ s.nesting = 0 := by
  obtain ⟨role, text⟩ := p
  cases role with
  | blank => cases h
  | comment => cases h
  | stray => simp [Layout.emit] at h
  | unterminated => simp [Layout.emit] at h
  | malformed => simp [Layout.emit] at h
  | token kind =>
    by_cases hkind : kind = .newline
    · subst hkind
      refine ⟨rfl, ?_⟩
      by_contra hnesting
      rw [Layout.emit, if_neg hnesting] at h
      cases h
    · rw [Layout.emit_token hkind, List.mem_append] at h
      rcases h with h | h
      · split at h
        · have hmargin := (s.isMarginAt_indentation _ h).1
          simp [ht] at hmargin
        · cases h
      · obtain rfl := Lexeme.token.inj (List.mem_singleton.mp h)
        exact absurd ht hkind

/-- A scanned line end that starts in a piece is that piece, outside brackets. -/
theorem role_of_newline {source : String} {ps qs : List Piece} {p : Piece} {t : Token}
    (h : pieces source.toList = ps ++ p :: qs) (ht : t ∈ (scan source).tokens)
    (hkind : t.kind = .newline) (hstart : ((Layout.after {} ps).spanOf p.text).Holds t.span.start) :
    p.role = .token .newline ∧ (Layout.after {} ps).nesting = 0 := by
  obtain ⟨x, hx, hxt⟩ := List.mem_filterMap.mp ht
  cases x with
  | error e => cases hxt
  | token u =>
    cases hxt
    rw [lexemes_eq_output, h] at hx
    have hps : ∀ q ∈ ps, q.text ≠ [] := fun q hq =>
      text_ne_nil (h ▸ List.mem_append_left _ hq)
    exact role_of_emit (Layout.mem_emit_of_start hps hx hstart) hkind

/-- Behind a scanned line end a line starts. -/
theorem exists_endsLine {source : String} {front rest : List Char}
    (hsource : source.toList = front ++ rest) {t : Token} (ht : t ∈ (scan source).tokens)
    (hkind : t.kind = .newline) (hstop : t.span.stop = Text.byteLength front) :
    ∃ ps, EndsLine front ps := by
  obtain ⟨inside, behind, ⟨line, hplace, hstart, hinside, -⟩, hshows⟩ := stands_token ht
  rw [hshows.newline hkind] at hplace hinside
  rw [hsource, ← List.append_assoc] at hplace
  obtain ⟨rfl, rfl⟩ := Text.append_inj_of_byteLength hplace (hstop.symm.trans hinside.symm)
  rw [List.append_assoc, List.singleton_append] at hsource
  rcases closed_or_string hsource with ⟨ps, tail, hclosed⟩ | ⟨ps, p, qs, hpieces, hrole, hholds⟩
  · obtain ⟨qs, hoffset, hqs⟩ := hclosed.exists_pieces_newline
    have hpieces := hsource ▸ hqs rest
    have hholds : ((Layout.after {} qs).spanOf ['\n']).Holds t.span.start := by
      have hpos := Char.utf8Size_pos '\n'
      simp only [Layout.spanOf, Span.Holds, Text.byteLength_cons, Text.byteLength_nil]
      omega
    exact ⟨_, .of_newline hqs (role_of_newline hpieces ht hkind hholds).2⟩
  · -- The piece at the line break would have to be a line break and a string.
    rw [hstart] at hholds
    have hline := (role_of_newline hpieces ht hkind hholds).1
    simp [hline] at hrole

/-! ## The scan -/

/-- A transparent insertion splices the lexemes. -/
theorem spliced_lexemes {front behind inserted : String} (h : Transparent front behind inserted) :
    Spliced front.utf8ByteSize (Text.lineBreaks inserted.toList) inserted.utf8ByteSize
      (lexemes (front ++ behind).toList) (lexemes (front ++ inserted ++ behind).toList) := by
  simp only [← Text.byteLength_toList, String.toList_append, List.append_assoc]
  cases h with
  | @firstLine inert hfront hinert =>
    subst hfront
    have hspliced := EndsLine.nil.spliced hinert behind.toList
    simpa using hspliced
  | @newLine inert t ht hkind hstop hinert =>
    rw [← Text.byteLength_toList] at hstop
    obtain ⟨ps, hline⟩ := exists_endsLine String.toList_append ht hkind hstop
    have hspliced := hline.spliced hinert behind.toList
    simpa using hspliced
  | endOfLine hbehind hnot hinert =>
    obtain ⟨rest, hrest⟩ := List.head?_eq_some_iff.mp hbehind
    have hsource : (front ++ behind).toList = front.toList ++ '\n' :: rest := by
      rw [String.toList_append, hrest]
    rw [← Text.byteLength_toList] at hnot
    obtain ⟨ps, tail, hclosed⟩ := (closed_or_string hsource).resolve_right
      fun ⟨_, _, _, hpieces, hrole, hholds⟩ => hnot (inString_of_piece hpieces hrole hholds)
    exact hclosed.spliced hinert (by simp [LineEnds, hrest])
  | endOfSource hbehind hterminated hinert =>
    subst hbehind
    rw [String.append_empty] at hterminated
    obtain ⟨ps, tail, hclosed⟩ := exists_closed_of_terminated hterminated
    exact hclosed.spliced hinert (by simp [LineEnds])

/-! ## The parse and the run -/

section

variable {offset lines bytes : Nat}

/-- Shifting the tokens behind an offset only moves them. -/
theorem isMove_shiftFrom : IsMove (Token.shiftFrom offset lines bytes) where
  kind t := by
    rw [Token.shiftFrom]
    split <;> rfl
  lexeme t := by
    rw [Token.shiftFrom]
    split <;> rfl

/-- What is blamed on a moved token is moved. -/
theorem Diagnostic.atToken_shiftFrom (stage : Stage) (t : Token) (message : String) :
    Diagnostic.atToken stage (t.shiftFrom offset lines bytes) message =
      (Diagnostic.atToken stage t message).shiftFrom offset lines bytes := by
  by_cases h : offset ≤ t.span.start
  · rw [Token.shiftFrom, if_pos h]
    exact (if_pos h).symm
  · rw [Token.shiftFrom, if_neg h]
    exact (if_neg h).symm

/-- A runtime error is reported as far on as its token. -/
theorem RuntimeError.diagnostic_shiftFrom (e : RuntimeError) :
    (RuntimeError.mk e.fault (e.token.shiftFrom offset lines bytes)).diagnostic =
      e.diagnostic.shiftFrom offset lines bytes := by
  have hmessage : (RuntimeError.mk e.fault (e.token.shiftFrom offset lines bytes)).message =
      e.message := by
    simp only [RuntimeError.message, isMove_shiftFrom.lexeme]
  rw [RuntimeError.diagnostic, hmessage]
  exact Diagnostic.atToken_shiftFrom ..

/-- Shifting a lexeme shifts its token. -/
theorem token?_shiftFrom (x : Lexeme) :
    (x.shiftFrom offset lines bytes).token? =
      x.token?.map (Token.shiftFrom offset lines bytes) := by
  by_cases h : offset ≤ x.start
  · rw [Lexeme.shiftFrom, if_pos h]
    cases x with
    | token t => exact congrArg some (if_pos h).symm
    | error e => rfl
  · rw [Lexeme.shiftFrom, if_neg h]
    cases x with
    | token t => exact congrArg some (if_neg h).symm
    | error e => rfl

/-- Shifting a lexeme shifts its diagnostic. -/
theorem diagnostic_shiftFrom (x : Lexeme) :
    (x.shiftFrom offset lines bytes).error?.map LexicalError.diagnostic =
      (x.error?.map LexicalError.diagnostic).map (Diagnostic.shiftFrom offset lines bytes) := by
  by_cases h : offset ≤ x.start
  · rw [Lexeme.shiftFrom, if_pos h]
    cases x with
    | token t => rfl
    | error e => exact congrArg some (if_pos h).symm
  · rw [Lexeme.shiftFrom, if_neg h]
    cases x with
    | token t => rfl
    | error e => exact congrArg some (if_neg h).symm

/-- Shifting lexemes shifts their tokens. -/
theorem tokensOf_shiftFrom (xs : List Lexeme) :
    tokensOf (xs.map (Lexeme.shiftFrom offset lines bytes)) =
      (tokensOf xs).map (Token.shiftFrom offset lines bytes) := by
  rw [tokensOf, tokensOf, List.filterMap_map, List.map_filterMap]
  exact List.filterMap_congr fun x _ => token?_shiftFrom x

/-- The lexical errors of a scan as they are reported. -/
def errorReports (xs : List Lexeme) : List Diagnostic :=
  (xs.filterMap Lexeme.error?).map LexicalError.diagnostic

/-- The reports of two runs of lexemes stand one behind the other. -/
theorem errorReports_append (xs ys : List Lexeme) :
    errorReports (xs ++ ys) = errorReports xs ++ errorReports ys := by
  simp [errorReports]

/-- Shifting lexemes shifts their reports. -/
theorem errorReports_shiftFrom (xs : List Lexeme) :
    errorReports (xs.map (Lexeme.shiftFrom offset lines bytes)) =
      (errorReports xs).map (Diagnostic.shiftFrom offset lines bytes) := by
  rw [errorReports, errorReports, List.filterMap_map, List.map_filterMap, List.map_filterMap,
    List.map_filterMap]
  exact List.filterMap_congr fun x _ => diagnostic_shiftFrom x

/-- A token lexeme stands for its token. -/
theorem tokensOf_cons (t : Token) (xs : List Lexeme) :
    tokensOf (.token t :: xs) = t :: tokensOf xs := rfl

namespace Spliced

variable {xs ys : List Lexeme}

/-- An insertion brings line ends behind line ends only. -/
theorem padded (h : Spliced offset lines bytes xs ys) :
    Padded (Token.shiftFrom offset lines bytes) true (tokensOf xs) (tokensOf ys) := by
  cases h with
  | inLine =>
    rw [tokensOf_shiftFrom]
    exact .map ..
  | first ht =>
    rw [tokensOf_cons, tokensOf_shiftFrom]
    exact .extra ht (.map ..)
  | @newLine before behind n t hn ht =>
    rw [tokensOf_append, tokensOf_append, tokensOf_append, tokensOf_shiftFrom, tokensOf_append,
      tokensOf_cons t, tokensOf_shiftFrom, List.map_append, List.append_assoc, List.append_assoc]
    refine .prepend (tokensOf before) ?_
    rw [hn]
    exact .extra ht (.map ..)

/-- A splice shifts the reports behind it. -/
theorem errorReports_eq (h : Spliced offset lines bytes xs ys) :
    errorReports ys = (errorReports xs).map (Diagnostic.shiftFrom offset lines bytes) := by
  cases h with
  | inLine => exact errorReports_shiftFrom xs
  | first ht => exact errorReports_shiftFrom xs
  | @newLine before behind n t hn ht =>
    have hline : errorReports (.token t :: behind.map (Lexeme.shiftFrom offset lines bytes)) =
        (errorReports behind).map (Diagnostic.shiftFrom offset lines bytes) :=
      errorReports_shiftFrom behind
    rw [errorReports_append, errorReports_append, hline, errorReports_shiftFrom, List.map_append]

end Spliced

/-- A token moved back. -/
def Token.unshiftFrom (offset lines bytes : Nat) (t : Token) : Token :=
  if offset + bytes ≤ t.span.start then
    { t with line := t.line - lines, span := ⟨t.span.start - bytes, t.span.stop - bytes⟩ }
  else t

/-- Shifting back only moves tokens. -/
theorem isMove_unshiftFrom : IsMove (Token.unshiftFrom offset lines bytes) where
  kind t := by
    rw [Token.unshiftFrom]
    split <;> rfl
  lexeme t := by
    rw [Token.unshiftFrom]
    split <;> rfl

/-- Shifting back undoes the shift. -/
theorem unshiftFrom_shiftFrom (t : Token) :
    (t.shiftFrom offset lines bytes).unshiftFrom offset lines bytes = t := by
  by_cases h : offset ≤ t.span.start
  · have hle : offset + bytes ≤ (t.shift lines bytes).span.start := Nat.add_le_add_right h bytes
    rw [Token.shiftFrom, if_pos h, Token.unshiftFrom, if_pos hle]
    simp [Token.shift]
  · rw [Token.shiftFrom, if_neg h, Token.unshiftFrom, if_neg (by omega)]

/-- What is shown of a run on its own: its report and what it printed. -/
def Session.shown (r : Outcome × Session) : Outcome × String := (r.1, r.2.textFrom 0)

/-- A run on its own is the first run of a new session. -/
theorem runAlone_eq (fuel depthLimit : Nat) (source : String) :
    runAlone fuel depthLimit source =
      ((Session.new depthLimit {}).run fuel source).map Session.shown := by
  rw [runAlone]
  cases (Session.new depthLimit {}).run fuel source <;> rfl

/-- The run of a moved program shows the same, except for the positions in its report. -/
theorem shown_conclude {r r' : EStateM.Result Halt Machine Flow}
    (h : MovedEnd (Token.shiftFrom offset lines bytes) r r') :
    (Session.conclude r').map Session.shown =
      ((Session.conclude r).map Session.shown).map fun (outcome, text) =>
        (outcome.shiftFrom offset lines bytes, text) := by
  cases h with
  | ok hsink => simp [Session.conclude, Session.shown, Session.textFrom, hsink, Outcome.shiftFrom]
  | @failed e m m' hsink =>
    simp [Session.conclude, Session.shown, Session.textFrom, hsink, Outcome.shiftFrom,
      RuntimeError.diagnostic_shiftFrom]
  | exhausted => rfl

/-- Sources whose scans differ by an insertion are parsed and run alike. -/
theorem onlyMoves_of_spliced {source source' : String}
    (h : Spliced offset lines bytes (lexemes source.toList) (lexemes source'.toList)) :
    OnlyMoves offset lines bytes source source' := by
  let g := Token.shiftFrom offset lines bytes
  have hparse : parse (scan source').tokens = (parse (scan source).tokens).move g :=
    parse_of_padded isMove_shiftFrom h.padded ⟨_, endOf_scan source⟩
  have hprogram : (check source').program = Stmt.moveEach g (check source).program :=
    congrArg Parse.program hparse
  have hsyntax : (parse (scan source').tokens).diagnostics =
      (parse (scan source).tokens).diagnostics.map (Diagnostic.shiftFrom offset lines bytes) := by
    rw [hparse, Parse.diagnostics_move, Parse.diagnostics, List.map_map]
    exact List.map_congr_left fun e _ => Diagnostic.atToken_shiftFrom ..
  have hdiagnostics : (check source').diagnostics =
      (check source).diagnostics.map (Diagnostic.shiftFrom offset lines bytes) := by
    change errorReports _ ++ _ = (errorReports _ ++ _).map _
    rw [List.map_append, ← hsyntax]
    exact congrArg (· ++ _) h.errorReports_eq
  refine ⟨hprogram, hdiagnostics, fun fuel depthLimit => ?_⟩
  rw [runAlone_eq, runAlone_eq, Session.run_eq, Session.run_eq, hdiagnostics, List.isEmpty_map,
    hprogram]
  split
  · exact shown_conclude (movedEnd_runProgram isMove_shiftFrom isMove_unshiftFrom
      unshiftFrom_shiftFrom fuel depthLimit (check source).program)
  · rfl

end

/-- Text that is no token changes nothing but positions: as a line of its own at the start or behind
the end of a line, and as blanks and a comment in front of a line break outside strings or at the
end of a source that leaves no string open. -/
theorem onlyMoves_insert {front behind inserted : String}
    (h : Transparent front behind inserted) :
    OnlyMoves front.utf8ByteSize (Text.lineBreaks inserted.toList) inserted.utf8ByteSize
      (front ++ behind) (front ++ inserted ++ behind) :=
  onlyMoves_of_spliced (spliced_lexemes h)

/-- A comment between the head of a block and its body, in a source with a syntax error. -/
theorem onlyMoves_insert_comment :
    Transparent "if a:\n" "    b = (\n" "  # c\n" ∧
      OnlyMoves 6 1 6 ("if a:\n" ++ "    b = (\n") ("if a:\n" ++ "  # c\n" ++ "    b = (\n") := by
  have hline : ⟨.newline, "\\n", 1, ⟨5, 6⟩⟩ ∈ (scan ("if a:\n" ++ "    b = (\n")).tokens := by
    rw [scan_eq_scanUpTo (n := 30) (by decide +kernel)]
    decide +kernel
  have hinert : Inert ([' ', ' '] ++ '#' :: [' ', 'c']) :=
    .comment (by simp [Piece.isGap]) (by simp)
  have htransparent : Transparent "if a:\n" "    b = (\n" ("  # c" ++ "\n") :=
    .newLine hline rfl rfl hinert
  exact ⟨htransparent, onlyMoves_insert htransparent⟩

end Offside
