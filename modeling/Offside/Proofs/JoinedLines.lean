import Offside.Proofs.Transparency

/-!
# Line breaks inside brackets

Inside brackets a line goes on over the line break, which counts like a space there. A scan of the
text with the break and a scan of the text with a space differ in the width of the blanks behind
that place, but no line starts inside brackets, and where the next one starts the width is counted
afresh. So the break only moves what follows down by one line.
-/

namespace Offside

/-! ## Pieces around a line break -/

/-- Pieces of which some spell out the same text as the first pieces are those. -/
theorem eq_of_flatMap_text_eq {ps qs rest rest' : List Piece}
    (h : ps ++ rest = qs ++ rest') (hps : ∀ p ∈ ps, p.text ≠ []) (hqs : ∀ q ∈ qs, q.text ≠ [])
    (htext : ps.flatMap Piece.text = qs.flatMap Piece.text) : ps = qs := by
  have hnil {ps more : List Piece} (hmore : ∀ p ∈ ps ++ more, p.text ≠ [])
      (heq : ps.flatMap Piece.text = (ps ++ more).flatMap Piece.text) : more = [] := by
    rw [List.flatMap_append] at heq
    have hempty := List.flatMap_eq_nil_iff.mp (List.append_right_eq_self.mp heq.symm)
    exact List.eq_nil_iff_forall_not_mem.mpr fun p hp =>
      hmore p (List.mem_append_right ps hp) (hempty p hp)
  rcases List.append_eq_append_iff.mp h with ⟨more, rfl, -⟩ | ⟨more, rfl, -⟩
  · rw [hnil hqs htext, List.append_nil]
  · rw [hnil hps htext.symm, List.append_nil]

/-- No cut between two pieces falls inside a piece. -/
theorem not_straddled {ps qs rest rest' : List Piece} {q : Piece} {front behind : List Char}
    (h : ps ++ rest = qs ++ q :: rest')
    (htext : ps.flatMap Piece.text = qs.flatMap Piece.text ++ front)
    (hq : q.text = front ++ behind) (hfront : front ≠ []) (hbehind : behind ≠ []) : False := by
  have hfront' := List.length_pos_iff.mpr hfront
  have hbehind' := List.length_pos_iff.mpr hbehind
  have hlength := congrArg List.length htext
  rw [List.length_append] at hlength
  rcases List.append_eq_append_iff.mp h with ⟨more, rfl, -⟩ | ⟨more, rfl, hmore⟩
  · rw [List.flatMap_append, List.length_append] at hlength
    omega
  · cases more with
    | nil => simp only [List.append_nil] at hlength; omega
    | cons p more =>
      obtain ⟨rfl, -⟩ := List.cons.inj hmore
      rw [List.flatMap_append, List.flatMap_cons, hq] at hlength
      simp only [List.length_append] at hlength
      omega

/-- A line break between two parts of a text that is scanned as a line break inside brackets, and
that does not end a comment. -/
def JoinsLines (front behind : List Char) : Prop :=
  ∃ ps qs, pieces (front ++ '\n' :: behind) = ps ++ ⟨.token .newline, ['\n']⟩ :: qs ∧
    ps.flatMap Piece.text = front ∧ 0 < (Layout.after {} ps).nesting ∧
    ∀ p ∈ ps.getLast?, p.role ≠ .comment

/-- In front of such a line break there are blanks, and in front of these nothing goes on. -/
theorem JoinsLines.exists_blanks {front behind : List Char} (h : JoinsLines front behind) :
    ∃ ps blanks, front = ps.flatMap Piece.text ++ blanks ∧ (∀ c ∈ blanks, Piece.isGap c) ∧
      0 < (Layout.after {} ps).nesting ∧
      ∀ rest, Piece.Blunt rest → pieces (front ++ rest) = ps ++ pieces (blanks ++ rest) := by
  obtain ⟨ps, qs, hpieces, htext, hnesting, hcomment⟩ := h
  obtain ⟨before, unfinished, hfront, hunfinished, happend⟩ :=
    exists_pieces_append_of_blunt front
  have hbreak : LineEnds ('\n' :: behind) := by simp [LineEnds]
  have hblunt := Piece.blunt_of_lineEnds hbreak
  have hsplit := (happend _ hblunt).symm.trans hpieces
  have hnonempty : ∀ p ∈ pieces (front ++ '\n' :: behind), p.text ≠ [] := fun p hp =>
    text_ne_nil hp
  have hps : ∀ p ∈ ps, p.text ≠ [] := fun p hp =>
    hnonempty p (hpieces ▸ List.mem_append_left _ hp)
  -- The pieces in front of the line break are those before and the blanks and comments behind them.
  have hinside {inert : List Piece} (hinert : inert.flatMap Piece.text = unfinished)
      (hrest : pieces (unfinished ++ '\n' :: behind) = inert ++ pieces ('\n' :: behind)) :
      ps = before ++ inert := by
    rw [hrest, ← List.append_assoc] at hsplit
    refine eq_of_flatMap_text_eq hsplit.symm hps (fun p hp => hnonempty p ?_) ?_
    · rw [hpieces, ← hsplit]
      exact List.mem_append_left _ hp
    · rw [htext, List.flatMap_append, hinert, hfront]
  cases hunfinished with
  | string hcs =>
    obtain ⟨p, more, tail, hstring, hp, -⟩ := pieces_string hcs behind
    rw [hstring] at hsplit
    exact (not_straddled hsplit.symm (htext.trans hfront) hp (by simp) (by simp)).elim
  | inert hinert =>
    cases hinert with
    | @blanks _ hblanks =>
      obtain ⟨inert, hinert, hall, hrest⟩ := pieces_blanks hblanks
      obtain rfl := hinside hinert (hrest _ (runEnds_cons (by decide)))
      refine ⟨before, unfinished, hfront, hblanks, ?_, happend⟩
      obtain ⟨width, hafter⟩ := (Layout.after {} before).after_inert hall
      rw [Layout.after_append, hafter] at hnesting
      exact hnesting
    | @comment cs ds hblanks hds =>
      obtain ⟨inert, hinert, -, hrest⟩ := pieces_blanks hblanks
      have hhash : RunEnds Piece.isGap ('#' :: ds ++ '\n' :: behind) := runEnds_cons (by decide)
      have htexts : (inert ++ [(⟨.comment, '#' :: ds⟩ : Piece)]).flatMap Piece.text =
          cs ++ '#' :: ds := by
        rw [List.flatMap_append, hinert]
        simp
      obtain rfl := hinside htexts
        (by rw [List.append_assoc, hrest _ hhash, pieces_comment hds hbreak]; simp)
      exact absurd rfl (hcomment ⟨.comment, '#' :: ds⟩ (by rw [← List.append_assoc]; simp))

/-! ## The two scans -/

namespace Layout

variable {s : Layout} {p : Piece} {ps : List Piece}

/-- A line starts outside brackets. -/
theorem nesting_of_lineStart_after (hstart : s.lineStart → s.nesting = 0) (ps : List Piece) :
    (s.after ps).lineStart → (s.after ps).nesting = 0 := by
  induction ps generalizing s with
  | nil => exact hstart
  | cons p ps ih => exact ih (nesting_of_lineStart_next hstart p)

/-- Inside a line the width of the blanks says nothing, and the next line starts without any. -/
theorem output_withWidth_of_inLine (h : s.lineStart = false) (width : Nat) (ps : List Piece) :
    (s.withWidth width).output ps = s.output ps := by
  induction ps generalizing s width with
  | nil => rfl
  | cons p ps ih =>
    have hemit : (s.withWidth width).emit p = s.emit p := by
      unfold emit
      simp only [withWidth, h, Bool.false_eq_true, if_false]
      rfl
    have hnext : (s.withWidth width).next p = s.next p ∨
        (s.next p).lineStart = false ∧
          ∃ w, (s.withWidth width).next p = (s.next p).withWidth w := by
      obtain ⟨role, text⟩ := p
      cases role with
      | token kind =>
        by_cases hkind : kind = .newline
        · subst hkind
          exact .inl rfl
        · refine .inr ⟨by rw [next_token hkind], width, ?_⟩
          rw [next_token hkind, next_token hkind]
          simp [withWidth, h]
      | blank => exact .inr ⟨h, _, rfl⟩
      | _ => exact .inr ⟨h, width, rfl⟩
    rw [output_cons, output_cons, hemit]
    rcases hnext with heq | ⟨hline, w, heq⟩
    · rw [heq]
    · rw [heq, ih hline]

/-- Inside a line, blanks only move what follows. -/
theorem output_blanks (h : s.lineStart = false) {cs rest : List Char}
    (hcs : ∀ c ∈ cs, Piece.isGap c) (hrest : RunEnds Piece.isGap rest) :
    s.output (pieces (cs ++ rest)) = (s.shift 0 (Text.byteLength cs)).output (pieces rest) := by
  have hbreaks : Text.lineBreaks cs = 0 := List.count_eq_zero.mpr (Inert.blanks hcs).not_mem_newline
  obtain ⟨qs, htext, hall, hqs⟩ := pieces_blanks hcs
  obtain ⟨width, hafter⟩ := s.after_inert hall
  rw [hqs rest hrest, output_append, emitAll_inert hall, List.nil_append, hafter, htext, hbreaks]
  exact output_withWidth_of_inLine (s := s.shift 0 (Text.byteLength cs)) h ..

/-- Inside brackets a line break among blanks counts like a space, except that another line starts
behind it. -/
theorem output_joined (hline : s.lineStart = false) (hnesting : 0 < s.nesting)
    {blanks : List Char} (hblanks : ∀ c ∈ blanks, Piece.isGap c) (behind : List Char) :
    ∃ more rest, s.output (pieces (blanks ++ ' ' :: behind)) =
        (s.shift 0 (Text.byteLength blanks + 1 + more)).output rest ∧
      s.output (pieces (blanks ++ '\n' :: behind)) =
        (s.shift 1 (Text.byteLength blanks + 1 + more)).output rest := by
  let gaps := behind.takeWhile Piece.isGap
  let rest := behind.dropWhile Piece.isGap
  have hgaps : ∀ c ∈ gaps, Piece.isGap c := fun c hc => of_mem_takeWhile hc
  have hrest : RunEnds Piece.isGap rest := runEnds_dropWhile Piece.isGap behind
  have hbehind : behind = gaps ++ rest := List.takeWhile_append_dropWhile.symm
  refine ⟨Text.byteLength gaps, pieces rest, ?_, ?_⟩
  · have hall : ∀ c ∈ blanks ++ ' ' :: gaps, Piece.isGap c :=
      List.forall_mem_append.mpr ⟨hblanks, List.forall_mem_cons.mpr ⟨rfl, hgaps⟩⟩
    have hlength : Text.byteLength (blanks ++ ' ' :: gaps) =
        Text.byteLength blanks + 1 + Text.byteLength gaps := by
      rw [Text.byteLength_append, Text.byteLength_cons, Nat.add_assoc]
      rfl
    have houtput := output_blanks hline hall hrest
    rwa [List.append_assoc, List.cons_append, ← hbehind, hlength] at houtput
  · let u := s.shift 0 (Text.byteLength blanks)
    have hemit : u.emit ⟨.token .newline, ['\n']⟩ = [] := if_neg (Nat.ne_of_gt hnesting)
    have hnext : u.next ⟨.token .newline, ['\n']⟩ =
        (s.shift 1 (Text.byteLength blanks + 1)).withWidth 0 := by
      have hzero : (s.nesting == 0) = false := beq_eq_false_iff_ne.mpr (Nat.ne_of_gt hnesting)
      have hsize : Text.byteLength ['\n'] = 1 := rfl
      have hbreak : Text.lineBreaks ['\n'] = 1 := rfl
      simp only [next, shift, withWidth, u, hline, hzero, hsize, hbreak, Bool.or_self,
        Nat.add_zero, Nat.add_assoc]
    rw [output_blanks hline hblanks (runEnds_cons rfl), pieces_newline, output_cons, hemit,
      List.nil_append, hnext, output_withWidth_of_inLine (s := s.shift 1 _) hline, hbehind,
      output_blanks (s := s.shift 1 _) hline hgaps hrest, shift_shift]

end Layout

variable {front behind : List Char}

/-- A line break inside brackets moves what is scanned behind it down by one line. -/
theorem JoinsLines.lexemes_eq (h : JoinsLines front behind) :
    lexemes (front ++ '\n' :: behind) = (lexemes (front ++ ' ' :: behind)).map
      (Lexeme.shiftFrom (Text.byteLength front + 1) 1 0) := by
  obtain ⟨ps, blanks, hfront, hblanks, hnesting, happend⟩ := h.exists_blanks
  let s := Layout.after {} ps
  have hline : s.lineStart = false := by
    by_contra hstart
    have hzero := Layout.nesting_of_lineStart_after (fun _ => rfl) ps (eq_true_of_ne_false hstart)
    exact absurd hzero (Nat.ne_of_gt hnesting)
  obtain ⟨more, rest, hspace, hbreak⟩ := Layout.output_joined hline hnesting hblanks behind
  have hps : ∀ p ∈ ps, p.text ≠ [] := by
    intro p hp
    have hmem : p ∈ pieces (front ++ []) := by
      rw [happend [] (by simp [Piece.Blunt])]
      exact List.mem_append_left _ hp
    exact text_ne_nil hmem
  have hoffset : s.offset + Text.byteLength blanks = Text.byteLength front := by
    rw [Layout.offset_after, hfront, Text.byteLength_append]
    exact congrArg (· + _) (Nat.zero_add _)
  have hbefore : ∀ x ∈ Layout.emitAll {} ps, x.start < Text.byteLength front + 1 := by
    intro x hx
    have hlt : x.start < s.offset := Layout.start_lt_of_mem_emitAll hps hx
    omega
  let u := s.shift 0 (Text.byteLength blanks + 1 + more)
  have hbehind : ∀ x ∈ u.output rest, Text.byteLength front + 1 ≤ x.start := by
    intro x hx
    have hle : s.offset + (Text.byteLength blanks + 1 + more) ≤ x.start :=
      Layout.offset_le_of_mem_output hx
    omega
  have hblunt {c : Char} (hc : c ∈ Piece.bluntChars) : Piece.Blunt (c :: behind) := by
    simpa [Piece.Blunt] using hc
  have hlower : s.shift 1 (Text.byteLength blanks + 1 + more) = u.shift 1 0 :=
    (Layout.shift_shift 0 _ 1 0 s).symm
  rw [lexemes_eq_output, lexemes_eq_output, happend _ (hblunt (by decide)),
    happend _ (hblunt (by decide)), Layout.output_append, Layout.output_append, hspace, hbreak,
    hlower, Layout.output_shift, List.map_append, map_shiftFrom_of_lt hbefore,
    map_shiftFrom_of_le hbehind]

/-! ## The source with a space instead -/

/-- Two sources that read alike, except that from the offset on everything in the second one stands
one line further down. -/
structure OnlyLower (offset : Nat) (source source' : String) : Prop where
  /-- Kinds, lexemes and spans are the same. -/
  tokens : (scan source').tokens = (scan source).tokens.map (Token.shiftFrom offset 1 0)
  /-- So are the messages and spans of the lexical errors. -/
  errors : (scan source').errors.map LexicalError.diagnostic =
    ((scan source).errors.map LexicalError.diagnostic).map (Diagnostic.shiftFrom offset 1 0)
  /-- So are the programs, up to lines, all diagnostics and what runs print. -/
  moves : OnlyMoves offset 1 0 source source'

/-- A line break that is scanned inside brackets and does not end a comment counts like a space: in
the source with a space instead, everything behind that place is on the line before, and nothing
else is different. -/
theorem onlyLower_of_joinsLines {front behind : String}
    (h : JoinsLines front.toList behind.toList) :
    OnlyLower (front.utf8ByteSize + 1) (front ++ " " ++ behind) (front ++ "\n" ++ behind) := by
  have hlexemes := h.lexemes_eq
  rw [Text.byteLength_toList] at hlexemes
  have hspace : (front ++ " " ++ behind).toList = front.toList ++ ' ' :: behind.toList := by simp
  have hbreak : (front ++ "\n" ++ behind).toList = front.toList ++ '\n' :: behind.toList := by simp
  rw [← hspace, ← hbreak] at hlexemes
  have hspliced : Spliced (front.utf8ByteSize + 1) 1 0 (lexemes (front ++ " " ++ behind).toList)
      (lexemes (front ++ "\n" ++ behind).toList) := hlexemes ▸ .inLine
  refine ⟨?_, hspliced.errorReports_eq, onlyMoves_of_spliced hspliced⟩
  change tokensOf (lexemes (front ++ "\n" ++ behind).toList) = _
  rw [hlexemes, tokensOf_shiftFrom]
  rfl

/-- A line break behind brackets of which one is closed by the wrong kind and another never. -/
theorem onlyLower_of_joinsLines_mismatched :
    JoinsLines "x = [(1]".toList "   + é\n  y\n".toList ∧
      OnlyLower 9 ("x = [(1]" ++ " " ++ "   + é\n  y\n")
        ("x = [(1]" ++ "\n" ++ "   + é\n  y\n") := by
  let source := "x = [(1]".toList ++ '\n' :: "   + é\n  y\n".toList
  have hcut : pieces source = cutUpTo 40 source := pieces_eq_cutUpTo (by decide +kernel)
  have hpieces : cutUpTo 40 source = (cutUpTo 40 source).take 8 ++
      ⟨.token .newline, ['\n']⟩ :: (cutUpTo 40 source).drop 9 := by decide +kernel
  have hjoins : JoinsLines "x = [(1]".toList "   + é\n  y\n".toList :=
    ⟨_, _, hcut.trans hpieces, by decide +kernel, by decide +kernel, by decide +kernel⟩
  exact ⟨hjoins, onlyLower_of_joinsLines hjoins⟩

end Offside
