import Offside.Proofs.Balance
import Offside.Proofs.Indentation

/-!
# Scanning two texts one behind the other

A text whose lines are ended and whose brackets are closed leaves nothing behind but positions and
open levels of indentation. So the tokens of a text behind it are those that it has on its own,
moved by the size of the text in front and with the dedents of the open levels among them.
-/

namespace Offside

namespace Layout

/-! ## Where a text leaves the scan -/

section

variable {s : Layout} {p : Piece} {ps : List Piece} {ts : List Token}

/-- A piece moves the offset on by its bytes. -/
theorem offset_next (s : Layout) (p : Piece) :
    (s.next p).offset = s.offset + Text.byteLength p.text := by
  unfold next
  split <;> rfl

/-- A piece moves the line on by its line breaks. -/
theorem line_next (s : Layout) (p : Piece) :
    (s.next p).line = s.line + Text.lineBreaks p.text := by
  unfold next
  split <;> rfl

/-- Pieces move the offset on by all their bytes. -/
theorem offset_after (s : Layout) (ps : List Piece) :
    (s.after ps).offset = s.offset + Text.byteLength (ps.flatMap Piece.text) := by
  induction ps generalizing s with
  | nil => rfl
  | cons p ps ih =>
    rw [after, List.foldl_cons, ← after, ih, offset_next, List.flatMap_cons,
      Text.byteLength_append, Nat.add_assoc]

/-- Pieces move the line on by all their line breaks. -/
theorem line_after (s : Layout) (ps : List Piece) :
    (s.after ps).line = s.line + Text.lineBreaks (ps.flatMap Piece.text) := by
  induction ps generalizing s with
  | nil => rfl
  | cons p ps ih =>
    rw [after, List.foldl_cons, ← after, ih, line_next, List.flatMap_cons,
      Text.lineBreaks_append, Nat.add_assoc]

/-- Only widths larger than that of the outermost level are open. -/
theorem positive_next (h : ∀ width ∈ s.levels, 0 < width) (p : Piece) :
    ∀ width ∈ (s.next p).levels, 0 < width := by
  have hreindent : ∀ width ∈ reindent s.width s.levels, 0 < width := by
    intro width hwidth
    unfold reindent at hwidth
    split at hwidth
    next hdeeper =>
      rcases List.mem_cons.mp hwidth with rfl | hwidth
      · exact Nat.lt_of_le_of_lt (Nat.zero_le _) hdeeper
      · exact h width hwidth
    next => exact h width ((List.dropWhile_suffix _).mem hwidth)
  unfold next
  split
  · exact h
  · exact h
  · exact h
  · exact h
  · exact h
  · exact h
  · dsimp only
    split
    · exact hreindent
    · exact h

/-- Pieces keep all levels positive. -/
theorem positive_after (h : ∀ width ∈ s.levels, 0 < width) (ps : List Piece) :
    ∀ width ∈ (s.after ps).levels, 0 < width := by
  induction ps generalizing s with
  | nil => exact h
  | cons p ps ih => exact ih (positive_next h p)

/-- The tokens of a piece and those of the pieces behind it. -/
theorem emitAll_cons_eq (h : s.emitAll (p :: ps) = ts.map .token) :
    ∃ us vs, ts = us ++ vs ∧ s.emit p = us.map .token ∧ (s.next p).emitAll ps = vs.map .token := by
  obtain ⟨us, vs, rfl, hus, hvs⟩ := List.append_eq_map_iff.mp h
  exact ⟨us, vs, rfl, hus.symm, hvs.symm⟩

/-- The tokens that change the indentation are no brackets. -/
theorem isNeutral_of_indentation {t : Token} (h : .token t ∈ s.indentation) : t.kind.isNeutral := by
  have hdedent {count : Nat} (h : .token t ∈ List.replicate count (Lexeme.token s.dedentAt)) :
      t.kind.isNeutral := by
    obtain rfl := Lexeme.token.inj (List.eq_of_mem_replicate h)
    rfl
  by_cases hdeeper : innermost s.levels < s.width
  · rw [indentation_of_lt hdeeper, List.mem_singleton] at h
    obtain rfl := Lexeme.token.inj h
    rfl
  · by_cases hfits : innermost (closeTo s.width s.levels) = s.width
    · exact hdedent (indentation_of_eq hdeeper hfits ▸ h)
    · rw [indentation_of_ne hdeeper hfits, List.mem_append] at h
      exact hdedent (h.resolve_right (by simp))

/-- A piece counts the brackets it emits. -/
theorem nesting_next (h : s.emit p = ts.map .token) :
    (s.next p).nesting = nestingOver s.nesting ts := by
  obtain ⟨role, text⟩ := p
  cases role with
  | blank =>
    obtain rfl : ts = [] := List.map_eq_nil_iff.mp h.symm
    rfl
  | comment =>
    obtain rfl : ts = [] := List.map_eq_nil_iff.mp h.symm
    rfl
  | stray => cases ts <;> cases h
  | unterminated => cases ts <;> cases h
  | malformed => cases ts <;> cases h
  | token kind =>
    by_cases hkind : kind = .newline
    · subst hkind
      rw [nestingOver_of_isNeutral]
      · rfl
      · intro t ht
        have hmem : Lexeme.token t ∈ s.emit ⟨.token .newline, text⟩ := by
          rw [h]
          exact List.mem_map_of_mem ht
        simp only [emit] at hmem
        split at hmem
        · obtain rfl := Lexeme.token.inj (List.mem_singleton.mp hmem)
          rfl
        · cases hmem
    · rw [emit_token hkind] at h
      obtain ⟨us, vs, rfl, hus, hvs⟩ := List.append_eq_map_iff.mp h
      obtain rfl := eq_singleton_of_map_token hvs
      have hneutral : ∀ t ∈ us, t.kind.isNeutral := by
        intro t ht
        have hmem : Lexeme.token t ∈ us.map Lexeme.token := List.mem_map_of_mem ht
        rw [hus] at hmem
        split at hmem
        · exact isNeutral_of_indentation hmem
        · cases hmem
      rw [next_token hkind, nestingOver_append, nestingOver_of_isNeutral hneutral]
      rfl

/-- Pieces count the brackets they emit. -/
theorem nesting_after (h : s.emitAll ps = ts.map .token) :
    (s.after ps).nesting = nestingOver s.nesting ts := by
  induction ps generalizing s ts with
  | nil =>
    obtain rfl : ts = [] := List.map_eq_nil_iff.mp h.symm
    rfl
  | cons p ps ih =>
    obtain ⟨us, vs, rfl, hus, hvs⟩ := emitAll_cons_eq h
    rw [nestingOver_append, ← nesting_next hus]
    exact ih hvs

/-- Where there is no lexical error, no string is left open. -/
theorem role_ne_unterminated (h : s.emitAll ps = ts.map .token) :
    ∀ p ∈ ps, p.role ≠ .unterminated := by
  induction ps generalizing s ts with
  | nil => simp
  | cons p ps ih =>
    obtain ⟨us, vs, rfl, hus, hvs⟩ := emitAll_cons_eq h
    refine List.forall_mem_cons.mpr ⟨fun hrole => ?_, ih hvs⟩
    simp only [emit, hrole] at hus
    cases us <;> cases hus

/-- A line break outside brackets ends the line: nothing of it remains but the position and the
open levels. -/
theorem after_line_break (s : Layout) (ps : List Piece)
    (h : (s.after (ps ++ [⟨.token .newline, ['\n']⟩])).nesting = 0) :
    let final := s.after (ps ++ [⟨.token .newline, ['\n']⟩])
    final = { offset := final.offset, line := final.line, levels := final.levels } ∧
      ∃ t, (s.after ps).emitAll [⟨.token .newline, ['\n']⟩] = [.token t] ∧ t.kind = .newline := by
  simp only [after, List.foldl_append, List.foldl_cons, List.foldl_nil] at h ⊢
  have hnesting : (ps.foldl next s).nesting = 0 := h
  exact ⟨by simp [next, hnesting], _, (List.append_nil _).trans (emit_newline hnesting), rfl⟩

end

end Layout

/-! ## Two texts -/

/-- No piece emits the end of input. -/
theorem kind_ne_endOfInput_of_emit {s : Layout} {p : Piece} {t : Token}
    (hp : p.role ≠ .token .endOfInput) (h : .token t ∈ s.emit p) : t.kind ≠ .endOfInput := by
  obtain ⟨role, text⟩ := p
  cases role with
  | blank => cases h
  | comment => cases h
  | stray => simp [Layout.emit] at h
  | unterminated => simp [Layout.emit] at h
  | malformed => simp [Layout.emit] at h
  | token kind =>
    by_cases hkind : kind = .newline
    · subst hkind
      simp only [Layout.emit] at h
      split at h
      · obtain rfl := Lexeme.token.inj (List.mem_singleton.mp h)
        simp
      · cases h
    · rw [Layout.emit_token hkind, List.mem_append] at h
      rcases h with h | h
      · split at h
        · exact Kind.ne_endOfInput_of_isNeutral (Layout.isNeutral_of_indentation h)
        · cases h
      · obtain rfl := Lexeme.token.inj (List.mem_singleton.mp h)
        simpa using hp

/-- Nor do several. -/
theorem kind_ne_endOfInput_of_emitAll {s : Layout} {ps : List Piece} {t : Token}
    (hps : ∀ p ∈ ps, p.role ≠ .token .endOfInput) (h : .token t ∈ s.emitAll ps) :
    t.kind ≠ .endOfInput := by
  induction ps generalizing s with
  | nil => cases h
  | cons p ps ih =>
    rw [List.forall_mem_cons] at hps
    rcases List.mem_append.mp h with h | h
    · exact kind_ne_endOfInput_of_emit hps.1 h
    · exact ih hps.2 h

/-- The tokens of a source up to its end. -/
def bodyOf (source : String) : List Token := tokensBeforeEnd (scan source).tokens

/-- Lexemes without errors are all tokens. -/
theorem eq_map_token_of_clean {xs : List Lexeme} (h : xs.filterMap Lexeme.error? = []) :
    xs = (xs.filterMap Lexeme.token?).map .token := by
  induction xs with
  | nil => rfl
  | cons x xs ih =>
    cases x with
    | token t => exact congrArg (Lexeme.token t :: ·) (ih h)
    | error e => cases h

/-- A source is scanned without errors into the tokens of which its items are. -/
theorem scan_eq_of_lexemes {source : String} {body : List Token} {finish : Token}
    (h : lexemes source.toList = (body ++ [finish]).map .token)
    (hbody : ∀ t ∈ body, t.kind ≠ .endOfInput) (hfinish : finish.kind = .endOfInput) :
    scan source = ⟨body ++ [finish], []⟩ ∧ bodyOf source = body := by
  have herrors (ts : List Token) : (ts.map Lexeme.token).filterMap Lexeme.error? = [] := by
    simp [Lexeme.error?]
  have htokens (ts : List Token) : (ts.map Lexeme.token).filterMap Lexeme.token? = ts := by
    rw [List.filterMap_map]
    exact List.filterMap_some
  have hscan : scan source = ⟨body ++ [finish], []⟩ := by
    rw [scan, h, herrors, htokens]
  refine ⟨hscan, ?_⟩
  rw [bodyOf, hscan]
  exact (tokensBeforeEnd_append hbody hfinish).1

/-- The tokens of a source without lexical errors: those of its pieces, and the dedents that close
what is open at the end. -/
theorem bodyOf_eq {source : String} (h : (scan source).errors = []) :
    let final := Layout.after {} (pieces source.toList)
    ∃ ts finish, Layout.emitAll {} (pieces source.toList) = ts.map .token ∧
      bodyOf source = ts ++ List.replicate final.levels.length final.dedentAt ∧
      (scan source).tokens = bodyOf source ++ [finish] ∧ finish.kind = .endOfInput ∧
      ∀ t ∈ bodyOf source, t.kind ≠ .endOfInput := by
  intro final
  have hlexemes := eq_map_token_of_clean h
  rw [lexemes_eq] at hlexemes
  obtain ⟨ts, vs, -, hts, -⟩ := List.append_eq_map_iff.mp hlexemes
  have hfinish : lexemes source.toList =
      ((ts ++ List.replicate final.levels.length final.dedentAt) ++ [final.endAt]).map
        .token := by
    rw [lexemes_eq, ← hts]
    simp [Layout.finish, Layout.endAt, final]
  have hinside : ∀ t ∈ ts ++ List.replicate final.levels.length final.dedentAt,
      t.kind ≠ .endOfInput := by
    intro t ht
    rcases List.mem_append.mp ht with ht | ht
    · refine kind_ne_endOfInput_of_emitAll (role_ne_endOfInput source.toList) (s := {}) ?_
      rw [← hts]
      exact List.mem_map_of_mem ht
    · rw [List.eq_of_mem_replicate ht]
      simp [Layout.dedentAt]
  obtain ⟨hscan, hbody⟩ := scan_eq_of_lexemes hfinish hinside rfl
  rw [hbody, hscan]
  exact ⟨ts, final.endAt, hts.symm, rfl, rfl, rfl, hinside⟩

/-- Where a text leaves the scan whose last line is ended and whose brackets are closed. -/
theorem after_pieces {cs : List Char} (hend : cs = [] ∨ cs.getLast? = some '\n') {ts : List Token}
    (hts : Layout.emitAll {} (pieces cs) = ts.map .token) (hnesting : nestingOver 0 ts = 0) :
    let final := Layout.after {} (pieces cs)
    final = (Layout.withLevels final.levels {}).shift (Text.lineBreaks cs) (Text.byteLength cs) ∧
      (ts = [] ∨ ts.getLast?.any (·.kind == .newline)) := by
  intro final
  rcases hend with rfl | hend
  · have hfinal : final = {} := by simp [final, Layout.after]
    rw [pieces_nil] at hts
    exact ⟨by rw [hfinal]; rfl, .inl (List.map_eq_nil_iff.mp hts.symm)⟩
  · obtain ⟨ps, hps⟩ := exists_pieces_eq_append hend (Layout.role_ne_unterminated hts)
    have hzero : final.nesting = 0 := (Layout.nesting_after hts).trans hnesting
    have hoffset : final.offset = 0 + Text.byteLength cs := by
      rw [Layout.offset_after, flatMap_text_pieces]
    have hline : final.line = 1 + Text.lineBreaks cs := by
      rw [Layout.line_after, flatMap_text_pieces]
    rw [hps] at hts
    obtain ⟨hfinal, t, hemit, ht⟩ :=
      Layout.after_line_break {} ps (by rw [← hps]; exact hzero)
    rw [← hps] at hfinal
    rw [Layout.emitAll_append, hemit] at hts
    obtain ⟨us, vs, rfl, -, hvs⟩ := List.append_eq_map_iff.mp hts
    obtain rfl := eq_singleton_of_map_token hvs
    refine ⟨?_, .inr (by simp [ht])⟩
    calc
      final = { offset := final.offset, line := final.line, levels := final.levels } := hfinal
      _ = { offset := 0 + Text.byteLength cs, line := 1 + Text.lineBreaks cs,
            levels := final.levels } := by rw [hoffset, hline]
      _ = (Layout.withLevels final.levels {}).shift (Text.lineBreaks cs) (Text.byteLength cs) :=
        rfl

/-- The end of the input is behind the dedents in front of the first token. -/
theorem Layout.ClosedInFront.dropEnd {count : Nat} {ts us : List Token} {finish : Token}
    (hfinish : finish.kind = .endOfInput) (h : ClosedInFront count (ts ++ [finish]) us) :
    ∃ vs, us = vs ++ [finish] ∧ ClosedInFront count ts vs := by
  obtain ⟨ns, ds, behind, hts, rfl, hns, hbehind, hcount, hds⟩ := h
  rcases List.eq_nil_or_concat behind with rfl | ⟨behind, last, rfl⟩
  · rw [List.append_nil] at hts
    have hmem : finish ∈ ns := hts ▸ List.mem_append_right ts (List.mem_singleton_self finish)
    have hnewline := hns finish hmem
    simp [hfinish] at hnewline
  · rw [List.concat_eq_append, ← List.append_assoc] at hts
    obtain ⟨rfl, hlast⟩ := List.append_inj' hts rfl
    obtain rfl := List.singleton_inj.mp hlast
    refine ⟨ns ++ (ds ++ behind), by simp, ns, ds, behind, rfl, rfl, hns, ?_, hcount, hds⟩
    cases behind with
    | nil => rfl
    | cons t behind => exact hbehind

/-- Closing levels in front adds only dedents. -/
theorem Layout.ClosedInFront.mem {count : Nat} {ts us : List Token} (h : ClosedInFront count ts us)
    {t : Token} (ht : t ∈ us) : t.kind = .dedent ∨ t ∈ ts := by
  obtain ⟨ns, ds, behind, rfl, rfl, -, -, -, hds⟩ := h
  rcases List.mem_append.mp ht with ht | ht
  · exact .inr (List.mem_append_left behind ht)
  · rcases List.mem_append.mp ht with ht | ht
    · exact .inl (hds t ht)
    · exact .inr (List.mem_append_right ns ht)

/-- The tokens of two sources one behind the other. The first source has its last line ended and its
brackets closed, and the second one starts at the left margin. -/
theorem scan_append {first second : String}
    (hend : first.toList = [] ∨ first.toList.getLast? = some '\n')
    (hfirst : (scan first).errors = []) (hsecond : (scan second).errors = [])
    (hnesting : nestingOver 0 (bodyOf first) = 0)
    (hindent : leads (· == .indent) (dropNewlines (scan second).tokens) = false) :
    let g := Token.shift (Text.lineBreaks first.toList) (Text.byteLength first.toList)
    (scan (first ++ second)).errors = [] ∧ ∃ before ds us,
      bodyOf first = before ++ ds ∧ bodyOf (first ++ second) = before ++ us.map g ∧
      (before = [] ∨ before.getLast?.any (·.kind == .newline)) ∧ (∀ d ∈ ds, d.kind = .dedent) ∧
      Layout.ClosedInFront ds.length (bodyOf second) us := by
  intro g
  obtain ⟨before, -, hbefore, hbody, -, -, hinside⟩ := bodyOf_eq hfirst
  obtain ⟨-, finish, -, -, htokens, hfinish, hinside'⟩ := bodyOf_eq hsecond
  have hzero : nestingOver 0 before = 0 := by
    rw [hbody, nestingOver_append, nestingOver_of_isNeutral] at hnesting
    · exact hnesting
    · intro d hd
      rw [List.eq_of_mem_replicate hd]
      rfl
  obtain ⟨hfinal, hline⟩ := after_pieces hend hbefore hzero
  -- From here on the first text matters only through where it leaves the scan.
  generalize hstate : Layout.after {} (pieces first.toList) = final at hfinal hbody
  have hpositive : ∀ width ∈ final.levels, 0 < width :=
    hstate ▸ Layout.positive_after (by simp) (pieces first.toList)
  have hlexemes : Layout.output {} (pieces second.toList) =
      (bodyOf second ++ [finish]).map .token := by
    rw [← htokens]
    exact (lexemes_eq _).symm.trans (eq_map_token_of_clean hsecond)
  obtain ⟨_, hus, hclosed⟩ :=
    Layout.output_withLevels hpositive rfl rfl rfl hlexemes (htokens ▸ hindent)
  obtain ⟨us, rfl, hclosed'⟩ := hclosed.dropEnd hfinish
  have hjoined : lexemes (first ++ second).toList =
      ((before ++ us.map g) ++ [g finish]).map .token := by
    rw [String.toList_append, lexemes_eq,
      pieces_append hend (Layout.role_ne_unterminated hbefore)]
    -- The scan of the second text is moved, and its open levels are those of the first.
    change Layout.output {} _ = _
    rw [Layout.output_append, hbefore, hstate, hfinal, Layout.output_shift, hus]
    simp [Lexeme.shift, g]
  have hinsideJoined : ∀ t ∈ before ++ us.map g, t.kind ≠ .endOfInput := by
    intro t ht
    rcases List.mem_append.mp ht with ht | ht
    · exact hinside t (hbody ▸ List.mem_append_left _ ht)
    · obtain ⟨u, hu, rfl⟩ := List.mem_map.mp ht
      rw [(isMove_shift _ _).kind]
      rcases hclosed'.mem hu with hu | hu
      · simp [hu]
      · exact hinside' u hu
  obtain ⟨hscan, hbodyJoined⟩ := scan_eq_of_lexemes hjoined hinsideJoined hfinish
  refine ⟨by rw [hscan], before, _, us, hbody, hbodyJoined, hline, ?_, ?_⟩
  · intro d hd
    rw [List.eq_of_mem_replicate hd]
    rfl
  · rwa [List.length_replicate]

/-- A scanned source text, by recursion on the number of its pieces. -/
def scanUpTo (n : Nat) (source : String) : Scan :=
  let found := Layout.output {} (cutUpTo n source.toList)
  ⟨found.filterMap Lexeme.token?, found.filterMap Lexeme.error?⟩

/-- A scan is the bounded one, for a bound not below the length of the source. -/
theorem scan_eq_scanUpTo {n : Nat} {source : String} (h : source.toList.length ≤ n) :
    scan source = scanUpTo n source := by
  rw [scan, lexemes_eq, pieces_eq_cutUpTo h]
  rfl

end Offside
