import Offside.Console.Dialogue
import Offside.Proofs.Dialogues
import Offside.Proofs.Lines
import Offside.Proofs.Origins

/-!
# Block headers in the console

The console takes a line for the header of a block if its text ends in a colon, blanks aside. The
scanner has its own idea of where the code of a line ends. The two agree except where a comment or a
stray character stands behind the colon: such a header alone is a complete entry, and the block that
follows it is never read as its body.
-/

namespace Offside

/-- Whether a token of this kind is part of the code of a line, the mark that opens a level
included. -/
def Kind.isCode : Kind → Bool
  | .newline | .dedent | .endOfInput => false
  | _ => true

/-- Of the tokens that are no code, only those at the ends of lines have a text. -/
theorem Kind.eq_newline_of_text {kind : Kind} (hcode : kind.isCode = false)
    (htext : kind.isSynthesized = false) : kind = .newline := by
  cases kind with
  | newline => rfl
  | dedent => cases htext
  | endOfInput => cases htext
  | _ => cases hcode

/-- The last token of a text that belongs to the code of a line. -/
def lastCode? (input : String) : Option Token :=
  ((scan input).tokens.filter (·.kind.isCode)).getLast?

/-! ## Lines that end in a colon -/

namespace Text

/-- The ending of a row is blank. -/
theorem isBlank_of_mem_ending {row : List Char} {c : Char} (h : c ∈ (splitEnding row).2) :
    isBlank c := by
  unfold splitEnding at h
  split at h
  · rcases List.mem_pair.mp h with rfl | rfl <;> decide
  · obtain rfl := List.mem_singleton.mp h
    decide
  · cases h

/-- The ending of a row does not show behind blanks. -/
theorem trimEnd_line (row : List Char) : trimEnd (splitEnding row).1 = trimEnd row := by
  conv_rhs => rw [← (splitEnding_append row).1]
  exact (trimEnd_append fun c hc => isBlank_of_mem_ending hc).symm

/-- The first row ends with the first line break. -/
theorem rows_line {line rest : List Char} (hne : line ≠ []) (hline : '\n' ∉ line)
    (hrest : LineEnds rest) :
    ∃ ending others, rows (line ++ rest) = (line ++ ending) :: others ∧ ∀ c ∈ ending, c = '\n' := by
  cases rest with
  | nil => exact ⟨[], [], by simpa using rows_of_notMem hne hline, by simp⟩
  | cons d rest =>
    obtain rfl : d = '\n' := hrest d rfl
    exact ⟨['\n'], rows rest, rows_break hline rest, by simp⟩

/-- A part of a line that stands at its end stands at the end of a row. -/
theorem exists_row (front : List Char) {line rest : List Char} (hne : line ≠ [])
    (hline : '\n' ∉ line) (hrest : LineEnds rest) :
    ∃ row ∈ rows (front ++ (line ++ rest)), ∃ before ending, row = before ++ (line ++ ending) ∧
      ∀ c ∈ ending, c = '\n' := by
  induction front with
  | nil =>
    obtain ⟨ending, others, hrows, hending⟩ := rows_line hne hline hrest
    exact ⟨_, by rw [List.nil_append, hrows]; exact List.mem_cons_self, [], ending, rfl, hending⟩
  | cons c front ih =>
    obtain ⟨row, hrow, before, ending, rfl, hending⟩ := ih
    rw [List.cons_append, rows]
    split
    · exact ⟨_, List.mem_cons_of_mem _ hrow, before, ending, rfl, hending⟩
    · cases hrows : rows (front ++ (line ++ rest)) with
      | nil =>
        rw [hrows] at hrow
        cases hrow
      | cons first others =>
        rw [hrows] at hrow
        rcases List.mem_cons.mp hrow with rfl | hother
        · exact ⟨_, List.mem_cons_self, c :: before, ending, rfl, hending⟩
        · exact ⟨_, List.mem_cons_of_mem _ hother, before, ending, rfl, hending⟩

end Text

/-- What may stand between tokens is blank, in the sense of the console too. -/
theorem Piece.isBlank_of_isGap {c : Char} (h : isGap c) : Text.isBlank c := by
  simp only [isGap, Bool.or_eq_true, beq_iff_eq] at h
  rcases h with ((rfl | rfl) | rfl) | rfl <;> decide

namespace Console

/-- A line opens a block if nothing but blanks stands behind its colon. -/
theorem opensBlock_of_lineEnds {front gap rest : List Char} (hgap : ∀ c ∈ gap, Piece.isGap c)
    (hrest : LineEnds rest) : opensBlock (front ++ ':' :: (gap ++ rest)) = true := by
  have hline : '\n' ∉ ':' :: gap := by
    rintro (_ | ⟨_, hmem⟩)
    exact absurd (hgap _ hmem) (by decide)
  obtain ⟨row, hrow, before, ending, rfl, hending⟩ :=
    Text.exists_row front (List.cons_ne_nil ':' gap) hline hrest
  have hblank : ∀ c ∈ gap ++ ending, Text.isBlank c := by
    intro c hc
    rcases List.mem_append.mp hc with hc | hc
    · exact Piece.isBlank_of_isGap (hgap c hc)
    · rw [hending c hc]
      decide
  have htrim : Text.trimEnd (before ++ (':' :: gap ++ ending)) = before ++ [':'] := by
    have hsplit : before ++ (':' :: gap ++ ending) = (before ++ [':']) ++ (gap ++ ending) := by simp
    rw [hsplit, Text.trimEnd_append hblank]
    simp [Text.trimEnd, Text.isBlank]
  refine List.any_eq_true.mpr ⟨_, List.mem_map.mpr ⟨_, hrow, rfl⟩, ?_⟩
  rw [Text.trimEnd_line, htrim]
  simp

end Console

/-! ## What stands behind the last token -/

namespace Layout

/-- Of two runs of pieces the second one is laid out in the state that the first one leaves. -/
theorem regions_append (s : Layout) (ps qs : List Piece) :
    s.regions (ps ++ qs) = s.regions ps ++ (s.after ps).regions qs := by
  induction ps generalizing s with
  | nil => rfl
  | cons p ps ih =>
    rw [List.cons_append, regions, regions, ih]
    rfl

end Layout

/-- Behind a part of some proper pieces there are proper pieces. -/
theorem AllProper.of_append {ps qs : List Piece} (h : AllProper (ps ++ qs)) : AllProper qs := by
  induction ps with
  | nil => exact h
  | cons p ps ih => exact ih h.2.2

/-- Only the colon is cut off as a colon. -/
theorem Piece.text_of_cutSingle {c : Char} {rest text : List Char}
    (h : cutSingle c rest = (⟨.token (.symbol .colon), text⟩, [])) : text = [':'] := by
  rw [cutSingle] at h
  cases hsymbol : singleSymbol? c with
  | none =>
    rw [hsymbol] at h
    cases h
  | some s =>
    rw [hsymbol] at h
    cases h
    unfold singleSymbol? at hsymbol
    split at hsymbol <;> first | rfl | cases hsymbol

/-- A colon is a piece of its own. -/
theorem Piece.text_of_colon {p : Piece} {rest : List Char} (hp : p.Proper rest)
    (hrole : p.role = .token (.symbol .colon)) : p.text = [':'] := by
  obtain ⟨role, text⟩ := p
  cases hrole
  obtain ⟨-, c, cs, htext, hcut⟩ := hp.of_token (by simp)
  have hcut := hcut [] (by simp [Separated])
  rw [List.append_nil] at hcut
  have hcuts := cutsAs c
  generalize cut c = k at hcut hcuts
  -- All that is not cut off as a symbol has another role.
  cases hcuts with
  | gap => cases hcut
  | comment => cases hcut
  | lineBreak => cases hcut
  | string =>
    unfold cutString at hcut
    split at hcut <;> cases hcut
  | word =>
    have hrole := congrArg (·.1.role) hcut
    simp only [cutRun, wordKind] at hrole
    split at hrole <;> cases hrole
  | number =>
    have hrole := congrArg (·.1.role) hcut
    simp only [cutNumber, numberRole] at hrole
    split at hrole <;> cases hrole
  | symbol =>
    unfold cutSymbol at hcut
    split at hcut
    · exact text_of_cutSingle hcut
    · split at hcut
      next hdouble =>
        cases hcut
        unfold doubleSymbol? at hdouble
        split at hdouble <;> cases hdouble
      next => exact text_of_cutSingle hcut

/-- Behind the last token of the code there are blanks, and then the line ends, a comment starts or
a stray character stands. -/
theorem Layout.behind_code {ps : List Piece} (hps : AllProper ps) {s : Layout}
    (hcode : ∀ u ∈ regionTokens (s.regions ps), u.kind = .newline)
    (hclosed : ¬LeavesStringOpen (regionFaults (s.regions ps))) :
    ∃ gap rest, ps.flatMap Piece.text = gap ++ rest ∧ (∀ c ∈ gap, Piece.isGap c) ∧
      (LineEnds rest ∨ ∃ c rest', rest = c :: rest' ∧
        (c = '#' ∨ ∃ e ∈ regionFaults (s.regions ps), e.fault = .unexpectedCharacter ∧
          e.span = ⟨s.offset + Text.byteLength gap, s.offset + Text.byteLength (gap ++ [c])⟩)) := by
  induction ps generalizing s with
  | nil => exact ⟨[], [], rfl, by simp, .inl (by simp [LineEnds])⟩
  | cons p ps ih =>
    obtain ⟨-, hp, hps⟩ := hps
    obtain ⟨role, text⟩ := p
    rw [regions, regionTokens_cons] at hcode
    rw [regions, regionFaults_cons] at hclosed ⊢
    rw [List.flatMap_cons]
    -- Only a blank leads on to the next piece.
    cases role with
    | malformed => exact hp.elim
    | unterminated => exact absurd ⟨_, List.mem_cons_self, rfl⟩ hclosed
    | comment =>
      obtain ⟨cs, htext, -⟩ := hp
      exact ⟨[], _, rfl, by simp, .inr ⟨'#', cs ++ _, by rw [htext]; rfl, .inl rfl⟩⟩
    | stray =>
      obtain ⟨c, htext⟩ := hp
      obtain rfl : text = [c] := htext
      exact ⟨[], _, rfl, by simp, .inr ⟨c, _, rfl, .inr ⟨_, List.mem_cons_self, rfl, rfl⟩⟩⟩
    | token kind =>
      by_cases hkind : kind = .newline
      · subst hkind
        have htext : text = ['\n'] := hp
        exact ⟨[], _, rfl, by simp, .inl (by simp [LineEnds, htext])⟩
      · rw [fate_token hkind] at hcode
        exact absurd (hcode _ List.mem_cons_self) hkind
    | blank =>
      obtain ⟨gap, rest, hrest, hgap, htail⟩ := ih hps hcode hclosed
      refine ⟨text ++ gap, rest, by rw [hrest, List.append_assoc], ?_, ?_⟩
      · exact fun c hc => (List.mem_append.mp hc).elim (hp.1 c) (hgap c)
      · refine htail.imp id ?_
        rintro ⟨c, rest', rfl, hc⟩
        refine ⟨c, rest', rfl, hc.imp id ?_⟩
        rintro ⟨e, he, hfault, hspan⟩
        refine ⟨e, he, hfault, ?_⟩
        rw [hspan, offset_next]
        simp only [Text.byteLength_append, Nat.add_assoc]

/-! ## Complete entries -/

/-- Behind the last token of the code only ends of lines and of levels follow. -/
theorem exists_behind_lastCode {input : String} {t : Token} (h : lastCode? input = some t) :
    ∃ before after, (scan input).tokens = before ++ t :: after ∧
      ∀ u ∈ after, u.kind.isCode = false := by
  obtain ⟨front, hfilter⟩ := List.getLast?_eq_some_iff.mp h
  obtain ⟨before, rest, htokens, -, hrest⟩ := List.filter_eq_append_iff.mp hfilter
  obtain ⟨skipped, after, rfl, -, -, hafter⟩ := List.filter_eq_cons_iff.mp hrest
  refine ⟨before ++ skipped, after, by rw [htokens, List.append_assoc], fun u hu => ?_⟩
  simpa using List.filter_eq_nil_iff.mp hafter u hu

/-- What the pieces behind a piece report is part of what the whole text reports. -/
theorem mem_errors_of_behind {input : String} {ps₁ ps₂ : List Piece} {p : Piece}
    (hpieces : pieces input.toList = ps₁ ++ p :: ps₂) {e : LexicalError}
    (he : e ∈ regionFaults (((Layout.after {} ps₁).next p).regions ps₂)) :
    e ∈ (scan input).errors := by
  have hall : e ∈ regionFaults (Layout.regions {} (pieces input.toList)) := by
    rw [hpieces, Layout.regions_append, regionFaults, List.filterMap_append, Layout.regions,
      ← regionFaults, ← regionFaults, regionFaults_cons]
    exact List.mem_append_right _ (List.mem_append_right _ he)
  rw [(covers_scan input).faults] at hall
  exact List.mem_of_mem_filter hall

/-- The last token of the code comes from a piece, and the pieces behind it give no tokens but the
ends of lines. -/
theorem exists_piece_of_lastCode {input : String} {t : Token} (h : lastCode? input = some t)
    (htext : t.hasText) :
    ∃ ps₁ p ps₂, pieces input.toList = ps₁ ++ p :: ps₂ ∧
      (Layout.after {} ps₁).fate p = .token t ∧
      ∀ u ∈ regionTokens (((Layout.after {} ps₁).next p).regions ps₂), u.kind = .newline := by
  obtain ⟨before, after, htokens, hafter⟩ := exists_behind_lastCode h
  have hregions : regionTokens (Layout.regions {} (pieces input.toList)) =
      before.filter Token.hasText ++ t :: after.filter Token.hasText := by
    rw [(covers_scan input).tokens, htokens, List.filter_append, List.filter_cons_of_pos htext]
  obtain ⟨ps₁, p, ps₂, hpieces, hfate, hbehind⟩ := Layout.exists_piece_of_token hregions
  refine ⟨ps₁, p, ps₂, hpieces, hfate, fun u hu => ?_⟩
  obtain ⟨hu, hutext⟩ := List.mem_filter.mp (hbehind ▸ hu)
  exact Kind.eq_newline_of_text (hafter u hu) (by simpa [Token.hasText] using hutext)

/-- Behind a colon that is the last token of the code there are blanks, and then the line ends, a
comment starts or a stray character stands. -/
theorem behind_lastColon {input : String} (hclosed : ¬LeavesStringOpen (scan input).errors)
    {t : Token} (hlast : lastCode? input = some t) (hcolon : t.kind = .symbol .colon) :
    ∃ gap rest, Text.At input.toList t.span [':'] (gap ++ rest) ∧ (∀ d ∈ gap, Piece.isGap d) ∧
      (LineEnds rest ∨ ∃ c rest', rest = c :: rest' ∧
        (c = '#' ∨ ∃ e ∈ (scan input).errors, e.fault = .unexpectedCharacter ∧
          Text.At input.toList e.span [c] rest')) := by
  have htext : t.hasText := by simp [Token.hasText, hcolon, Kind.isSynthesized]
  obtain ⟨ps₁, p, ps₂, hpieces, hfate, hcode⟩ := exists_piece_of_lastCode hlast htext
  have hproper := allProper_pieces input.toList
  rw [hpieces] at hproper
  obtain ⟨-, hp, hps₂⟩ := hproper.of_append
  obtain ⟨hrole, hspan⟩ := Layout.role_of_fate hfate
  have hcolonText := Piece.text_of_colon hp (hcolon ▸ hrole)
  have hclosed₂ :
      ¬LeavesStringOpen (regionFaults (((Layout.after {} ps₁).next p).regions ps₂)) := by
    rintro ⟨e, he, hfault⟩
    exact hclosed ⟨e, mem_errors_of_behind hpieces he, hfault⟩
  obtain ⟨gap, rest, hrest, hgap, htail⟩ := Layout.behind_code hps₂ hcode hclosed₂
  have hat := Layout.at_of_fate hpieces hfate
  rw [hcolonText, hrest] at hat
  refine ⟨gap, rest, hat, hgap, htail.imp id ?_⟩
  rintro ⟨c, rest', rfl, hc⟩
  refine ⟨c, rest', rfl, hc.imp id ?_⟩
  rintro ⟨e, he, hfault, hspan'⟩
  obtain ⟨front, hinput, -, hstop⟩ := hat
  have hoffset : ((Layout.after {} ps₁).next p).offset = Text.byteLength (front ++ [':']) := by
    rw [Layout.offset_next, hstop, hspan]
    rfl
  refine ⟨e, mem_errors_of_behind hpieces he, hfault, (front ++ [':']) ++ gap, ?_, ?_, ?_⟩
  · rw [hinput]
    simp
  · rw [hspan', hoffset, Text.byteLength_append _ gap]
  · rw [hspan', hoffset, List.append_assoc, Text.byteLength_append _ (gap ++ [c])]

namespace Console

/-- A complete entry has no open string, and it opens no block unless it ends with a line break. -/
theorem closed_of_complete {input : String} (h : judge input.toList = .complete) :
    ¬LeavesStringOpen (scan input).errors ∧
      (opensBlock input.toList = true → input.toList.getLast? = some '\n') := by
  unfold judge at h
  have hagrees := agrees_scan input
  cases hbalance : balance input.toList with
  | unmatched c offset => simp [hbalance] at h
  | opened => simp [hbalance] at h
  | closed =>
    rw [hbalance] at hagrees h
    refine ⟨?_, fun hopens => ?_⟩
    · generalize openBehind 0 (bracketsOf input) = r at hagrees
      cases hagrees with
      | closed hstring => exact hstring
    · by_contra hend
      simp [hopens, hend] at h

/-- If a complete entry that does not end with a line break has a colon as the last token of its
code, a comment or a stray character stands behind the colon on its line. -/
theorem behind_colon_of_complete {input : String} (hcomplete : judge input.toList = .complete)
    (hend : input.toList.getLast? ≠ some '\n') {t : Token} (hlast : lastCode? input = some t)
    (hcolon : t.kind = .symbol .colon) :
    ∃ gap c rest, Text.At input.toList t.span [':'] (gap ++ c :: rest) ∧
      (∀ d ∈ gap, Piece.isGap d) ∧
      (c = '#' ∨ ∃ e ∈ (scan input).errors, e.fault = .unexpectedCharacter ∧
        Text.At input.toList e.span [c] rest) := by
  obtain ⟨hclosed, hblock⟩ := closed_of_complete hcomplete
  obtain ⟨gap, rest, hat, hgap, hline | ⟨c, rest', rfl, hc⟩⟩ :=
    behind_lastColon hclosed hlast hcolon
  · obtain ⟨front, hinput, -⟩ := hat
    have hopens : opensBlock input.toList = true := by
      rw [hinput, List.singleton_append]
      exact opensBlock_of_lineEnds hgap hline
    exact absurd (hblock hopens) hend
  · exact ⟨gap, c, rest', hat, hgap, hc⟩

/-- A header with a comment behind its colon is an entry by itself. -/
theorem commented_header_entered :
    judge "if a: # b".toList = .complete ∧ "if a: # b".toList.getLast? ≠ some '\n' ∧
      (lastCode? "if a: # b").map (·.kind) = some (.symbol .colon) ∧
      readLine [] "if a: # b\n".toList = .entry "if a: # b".toList := by
  rw [lastCode?, scan_eq_scanUpTo (n := 20) (by decide +kernel)]
  exact ⟨by decide +kernel, by decide +kernel, by decide +kernel, rfl⟩

/-- A stray character behind the colon has the same effect as a comment. -/
theorem behind_colon_of_stray :
    ∃ t gap c rest, lastCode? "if a: ?" = some t ∧
      Text.At "if a: ?".toList t.span [':'] (gap ++ c :: rest) ∧ (∀ d ∈ gap, Piece.isGap d) ∧
      (c = '#' ∨ ∃ e ∈ (scan "if a: ?").errors, e.fault = .unexpectedCharacter ∧
        Text.At "if a: ?".toList e.span [c] rest) := by
  have hcomplete : judge "if a: ?".toList = .complete := by decide +kernel
  have hcode : (lastCode? "if a: ?").map (·.kind) = some (.symbol .colon) := by
    rw [lastCode?, scan_eq_scanUpTo (n := 20) (by decide +kernel)]
    decide +kernel
  obtain ⟨t, hlast, hcolon⟩ := Option.map_eq_some_iff.mp hcode
  obtain ⟨gap, c, rest, hbehind⟩ :=
    behind_colon_of_complete hcomplete (by decide +kernel) hlast hcolon
  exact ⟨t, gap, c, rest, hlast, hbehind⟩

end Console

end Offside
