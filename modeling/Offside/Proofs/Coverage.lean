import Offside.Proofs.Scanning
import Offside.Proofs.Streams

/-!
# Scanning loses no text

A source is covered by regions without gap or overlap: the text of a token, of a lexical error, a
run of blanks, a comment, or a line break inside brackets. The tokens with text of their own and the
errors about text are exactly those of the regions, so every byte of a source belongs to one of
them. Tokens that open or close a level take no text and stand in front of the next token that does.
-/

namespace Offside

/-- Whether a token of this kind is made up by the layout and has no text in the source. -/
def Kind.isSynthesized : Kind → Bool
  | .indent | .dedent | .endOfInput => true
  | _ => false

/-- Whether a token has text in the source. -/
def Token.hasText (t : Token) : Bool := !t.kind.isSynthesized

/-- What becomes of a region of a source. -/
inductive Fate where
  | token (t : Token)
  | fault (e : LexicalError)
  | blank
  | comment
  /-- A line break inside brackets. -/
  | joined

/-- The token that a region is read as. -/
def Fate.token? : Fate → Option Token
  | .token t => some t
  | _ => none

/-- The error that a region is reported as. -/
def Fate.fault? : Fate → Option LexicalError
  | .fault e => some e
  | _ => none

/-- A stretch of a source that is read as a whole. -/
structure Region where
  fate : Fate
  span : Span

/-- The tokens of some regions. -/
def regionTokens (rs : List Region) : List Token := rs.filterMap (·.fate.token?)

/-- The errors of some regions. -/
def regionFaults (rs : List Region) : List LexicalError := rs.filterMap (·.fate.fault?)

/-- Whether a byte lies in a span. -/
def Span.Holds (span : Span) (byte : Nat) : Prop := span.start ≤ byte ∧ byte < span.stop

/-- The characters at a span of a text, and those behind them. Both ends of the span lie between two
characters of the text. -/
def Text.At (cs : List Char) (span : Span) (inside behind : List Char) : Prop :=
  ∃ front, cs = front ++ (inside ++ behind) ∧ byteLength front = span.start ∧
    byteLength (front ++ inside) = span.stop

/-- Whether a token quotes its text; the end of a line is quoted by its escape sequence. -/
def Token.Quotes (t : Token) (text : List Char) : Prop :=
  if t.kind = .newline then text = ['\n'] else t.lexeme = String.ofList text

/-- What a region is read as, given its text, the text behind it and the tokens in front. -/
def Fate.Fits (inside behind : List Char) (before : List Token) : Fate → Prop
  | .token t => t.hasText ∧ t.Quotes inside
  | .fault e =>
    e.fault = .unexpectedCharacter ∧ inside.length = 1 ∨
      e.fault = .unterminatedString ∧ behind = [] ∧ ∃ cs, inside = '"' :: cs ∧ '"' ∉ cs
  | .blank => (∀ c ∈ inside, Piece.isGap c) ∧ RunEnds Piece.isGap behind
  | .comment => ∃ cs, inside = '#' :: cs ∧ '\n' ∉ cs ∧ ∀ c ∈ behind.head?, c = '\n'
  | .joined => inside = ['\n'] ∧ 0 < nestingOver 0 before

/-- The span of the token or error that a region is read as. -/
def Fate.HasSpan (span : Span) : Fate → Prop
  | .token t => t.span = span
  | .fault e => e.span = span
  | _ => True

/-- A region of a text, with the tokens in front of it. -/
structure Region.IsOf (cs : List Char) (before : List Token) (r : Region) : Prop where
  hasSpan : r.fate.HasSpan r.span
  fits : ∃ inside behind, inside ≠ [] ∧ Text.At cs r.span inside behind ∧
    r.fate.Fits inside behind before

/-- Regions that cover a source and account for all its tokens with text and all errors about its
text. -/
structure Covers (source : String) (regions : List Region) : Prop where
  /-- Every byte lies in exactly one region. -/
  partition : ∀ byte < source.utf8ByteSize,
    ∃! i : Nat, ∃ r : Region, regions[i]? = some r ∧ r.span.Holds byte
  ordered : regions.Pairwise (·.span.stop ≤ ·.span.start)
  /-- The tokens with text are those that the regions are read as, in the same order. -/
  tokens : regionTokens regions = (scan source).tokens.filter Token.hasText
  /-- The errors about text are those that the regions are reported as. -/
  faults : regionFaults regions =
    (scan source).errors.filter (·.fault != .inconsistentDedent)
  /-- Each region is of the form that what becomes of it tells. -/
  regions : ∀ before r after, regions = before ++ r :: after →
    r.IsOf source.toList (regionTokens before)

/-- Where the first token with text starts, or the given end if there is none. -/
def textStart (stop : Nat) (ts : List Token) : Nat :=
  ((ts.find? Token.hasText).map (·.span.start)).getD stop

/-- The spans of the tokens of a source. -/
structure Placed (source : String) (ts : List Token) : Prop where
  /-- A token with text quotes the characters at its span, which is not empty. -/
  quotes : ∀ t ∈ ts, t.hasText → t.span.start < t.span.stop ∧
    ∃ inside behind, Text.At source.toList t.span inside behind ∧ t.Quotes inside
  /-- The spans of tokens with text increase and do not overlap. -/
  ordered : (ts.filter Token.hasText).Pairwise (·.span.stop ≤ ·.span.start)
  /-- A token that opens or closes a level has the empty span in front of the next token with text,
  or at the end of the source. -/
  margins : ∀ before t after, ts = before ++ t :: after → t.kind = .indent ∨ t.kind = .dedent →
    t.span = .point (textStart source.utf8ByteSize after)

/-! ## Scanned items and regions -/

/-- Only structural tokens are made up by the scanner. -/
theorem Kind.isSynthesized_of_isStructural {kind : Kind} (h : kind.isStructural = false) :
    kind.isSynthesized = false := by
  cases kind with
  | indent => cases h
  | dedent => cases h
  | endOfInput => cases h
  | _ => rfl

/-- A fate with a token is that token. -/
theorem Fate.token?_eq_some {f : Fate} {t : Token} (h : f.token? = some t) : f = .token t := by
  cases f with
  | token u => exact congrArg Fate.token (Option.some.inj h)
  | _ => cases h

/-- A fate with an error is that error. -/
theorem Fate.fault?_eq_some {f : Fate} {e : LexicalError} (h : f.fault? = some e) :
    f = .fault e := by
  cases f with
  | fault u => exact congrArg Fate.fault (Option.some.inj h)
  | _ => cases h

/-- A text that is not empty has a span that is not empty. -/
theorem Text.At.start_lt_stop {cs inside behind : List Char} {span : Span}
    (h : At cs span inside behind) (hne : inside ≠ []) : span.start < span.stop := by
  obtain ⟨front, -, hstart, hstop⟩ := h
  have hpos := byteLength_pos hne
  rw [byteLength_append] at hstop
  omega

/-- There are no tokens without regions. -/
@[simp] theorem regionTokens_nil : regionTokens [] = [] := rfl

/-- The token of the first region comes first. -/
theorem regionTokens_cons (r : Region) (rs : List Region) :
    regionTokens (r :: rs) = r.fate.token?.toList ++ regionTokens rs := by
  cases h : r.fate.token? <;> simp [regionTokens, h]

/-- The error of the first region comes first. -/
theorem regionFaults_cons (r : Region) (rs : List Region) :
    regionFaults (r :: rs) = r.fate.fault?.toList ++ regionFaults rs := by
  cases h : r.fate.fault? <;> simp [regionFaults, h]

/-- What is scanned at a region. -/
def Fate.lexemes : Fate → List Lexeme
  | .token t => [.token t]
  | .fault e => [.error e]
  | _ => []

/-- Whether a scanned item is about text in the source. -/
def Lexeme.hasText : Lexeme → Bool
  | .token t => t.hasText
  | .error e => e.fault != .inconsistentDedent

/-- A change of indentation at an offset, or the error about one. -/
def Lexeme.IsMarginAt (offset : Nat) : Lexeme → Prop
  | .token t => (t.kind = .indent ∨ t.kind = .dedent) ∧ t.span = .point offset
  | .error e => e.fault = .inconsistentDedent

/-- What the indentation gives rise to has no text. -/
theorem Lexeme.IsMarginAt.hasText {x : Lexeme} {offset : Nat} (h : x.IsMarginAt offset) :
    x.hasText = false := by
  cases x with
  | token t =>
    rcases h.1 with hkind | hkind <;>
      simp [Lexeme.hasText, Token.hasText, hkind, Kind.isSynthesized]
  | error e =>
    have hfault : e.fault = .inconsistentDedent := h
    simp [Lexeme.hasText, hfault]

/-- Of the items with text the tokens are the tokens with text. -/
theorem tokensOf_filter_hasText (xs : List Lexeme) :
    tokensOf (xs.filter Lexeme.hasText) = (tokensOf xs).filter Token.hasText := by
  rw [tokensOf, tokensOf, List.filterMap_filter, List.filter_filterMap]
  congr 1
  funext x
  cases x with
  | token t => cases h : t.hasText <;> simp [Lexeme.hasText, Lexeme.token?, Option.filter, h]
  | error e => simp [Lexeme.token?]

/-- Of the items with text the errors are all but those about indentation. -/
theorem errors_filter_hasText (xs : List Lexeme) :
    (xs.filter Lexeme.hasText).filterMap Lexeme.error? =
      (xs.filterMap Lexeme.error?).filter (·.fault != .inconsistentDedent) := by
  rw [List.filterMap_filter, List.filter_filterMap]
  congr 1
  funext x
  cases x with
  | token t => simp [Lexeme.error?]
  | error e => simp [Lexeme.hasText, Lexeme.error?, Option.filter]

/-- A fate gives rise to its token, if it has one. -/
theorem tokensOf_lexemes (f : Fate) : tokensOf f.lexemes = f.token?.toList := by
  cases f <;> rfl

/-- The tokens that the regions give rise to are the tokens of the regions. -/
theorem tokensOf_regions (rs : List Region) :
    tokensOf (rs.flatMap (·.fate.lexemes)) = regionTokens rs := by
  induction rs with
  | nil => rfl
  | cons r rs ih =>
    rw [List.flatMap_cons, tokensOf_append, tokensOf_lexemes, ih, regionTokens_cons]

/-- The errors that the regions give rise to are the errors of the regions. -/
theorem errors_regions (rs : List Region) :
    (rs.flatMap (·.fate.lexemes)).filterMap Lexeme.error? = regionFaults rs := by
  have hfate (f : Fate) : f.lexemes.filterMap Lexeme.error? = f.fault?.toList := by
    cases f <;> rfl
  induction rs with
  | nil => rfl
  | cons r rs ih =>
    rw [List.flatMap_cons, List.filterMap_append, hfate, ih, regionFaults_cons]

/-- The bytes of the characters are the bytes of the string. -/
theorem Text.byteLength_toList (s : String) : byteLength s.toList = s.utf8ByteSize := by
  have hsize (cs : List Char) : cs.utf8Encode.size = byteLength cs := by
    induction cs with
    | nil => rfl
    | cons c cs ih =>
      rw [List.utf8Encode_cons, ByteArray.size_append, ih, List.utf8Encode_singleton,
        List.size_toByteArray, String.length_utf8EncodeChar, byteLength_cons]
  rw [← hsize, String.utf8Encode_toList, String.size_toByteArray]

/-- The pieces of a source reach up to its end. -/
theorem offset_after_pieces (source : String) :
    (Layout.after {} (pieces source.toList)).offset = source.utf8ByteSize := by
  rw [Layout.offset_after, flatMap_text_pieces, Text.byteLength_toList]
  exact Nat.zero_add _

/-! ## Tilings -/

/-- Regions without gap or overlap from `lo` up to `hi`, none of them empty. -/
def Tiles : Nat → List Region → Nat → Prop
  | lo, [], hi => lo = hi
  | lo, r :: rs, hi => r.span.start = lo ∧ lo < r.span.stop ∧ Tiles r.span.stop rs hi

namespace Tiles

variable {lo hi : Nat} {rs : List Region}

/-- Tiles start where the first one does or later. -/
theorem le_start (h : Tiles lo rs hi) : ∀ r ∈ rs, lo ≤ r.span.start := by
  induction rs generalizing lo with
  | nil => simp
  | cons r rs ih =>
    obtain ⟨hstart, hlt, hrest⟩ := h
    refine List.forall_mem_cons.mpr ⟨Nat.le_of_eq hstart.symm, fun r' hr' => ?_⟩
    have hle := ih hrest r' hr'
    omega

/-- Each tile ends where the next one starts or earlier. -/
theorem pairwise (h : Tiles lo rs hi) : rs.Pairwise (·.span.stop ≤ ·.span.start) := by
  induction rs generalizing lo with
  | nil => exact .nil
  | cons r rs ih =>
    obtain ⟨-, -, hrest⟩ := h
    exact List.pairwise_cons.mpr ⟨hrest.le_start, ih hrest⟩

/-- Every byte of a tiling lies in exactly one region. -/
theorem existsUnique (h : Tiles lo rs hi) {byte : Nat} (hlo : lo ≤ byte) (hhi : byte < hi) :
    ∃! i : Nat, ∃ r : Region, rs[i]? = some r ∧ r.span.Holds byte := by
  induction rs generalizing lo with
  | nil =>
    have heq : lo = hi := h
    omega
  | cons r rs ih =>
    obtain ⟨hstart, hlt, hrest⟩ := h
    by_cases hbyte : byte < r.span.stop
    · refine ⟨0, ⟨r, rfl, by omega, hbyte⟩, ?_⟩
      rintro (_ | i) ⟨r', hr', hholds⟩
      · rfl
      · -- A later region starts behind this one.
        have hle := hrest.le_start r' (List.mem_of_getElem? hr')
        have hle' := hholds.1
        omega
    · obtain ⟨i, ⟨r', hr', hholds⟩, hunique⟩ := ih hrest (by omega)
      refine ⟨i + 1, ⟨r', hr', hholds⟩, ?_⟩
      rintro (_ | j) ⟨r'', hr'', hholds'⟩
      · obtain rfl : r = r'' := Option.some.inj hr''
        exact absurd hholds'.2 hbyte
      · rw [hunique j ⟨r'', hr'', hholds'⟩]

end Tiles

/-! ## The regions of a scan -/

namespace Layout

/-- What becomes of a piece. -/
def fate (s : Layout) (p : Piece) : Fate :=
  match p.role with
  | .blank => .blank
  | .comment => .comment
  | .stray => .fault ⟨.unexpectedCharacter, s.line, s.spanOf p.text⟩
  | .unterminated => .fault ⟨.unterminatedString, s.line, s.spanOf p.text⟩
  | .malformed => .fault ⟨.invalidNumber (String.ofList p.text), s.line, s.spanOf p.text⟩
  | .token .newline =>
    if s.nesting = 0 then .token ⟨.newline, "\\n", s.line, s.spanOf p.text⟩ else .joined
  | .token kind => .token ⟨kind, String.ofList p.text, s.line, s.spanOf p.text⟩

/-- The regions of some pieces. -/
def regions (s : Layout) : List Piece → List Region
  | [] => []
  | p :: ps => ⟨s.fate p, s.spanOf p.text⟩ :: (s.next p).regions ps

/-- The regions of some pieces lie end to end, since every piece has a text. -/
theorem tiles_regions {ps : List Piece} (hps : AllProper ps) (s : Layout) :
    Tiles s.offset (s.regions ps) (s.after ps).offset := by
  induction ps generalizing s with
  | nil => rfl
  | cons p ps ih =>
    obtain ⟨htext, -, hps⟩ := hps
    have hpos := Text.byteLength_pos htext
    have hrest := ih hps (s.next p)
    rw [offset_next] at hrest
    exact ⟨rfl, Nat.lt_add_of_pos_right hpos, hrest⟩

/-- A level ends at a single place. -/
theorem isMarginAt_dedentAt (s : Layout) : (Lexeme.token s.dedentAt).IsMarginAt s.offset :=
  ⟨.inr rfl, rfl⟩

/-- All that the indentation of a line gives rise to stands where its first token starts. -/
theorem isMarginAt_indentation (s : Layout) : ∀ x ∈ s.indentation, x.IsMarginAt s.offset := by
  have hdedents (count : Nat) :
      ∀ x ∈ List.replicate count (Lexeme.token s.dedentAt), x.IsMarginAt s.offset := by
    intro x hx
    rw [List.eq_of_mem_replicate hx]
    exact s.isMarginAt_dedentAt
  by_cases hdeeper : innermost s.levels < s.width
  · rw [indentation_of_lt hdeeper]
    exact List.forall_mem_singleton.mpr ⟨.inl rfl, rfl⟩
  · by_cases hfits : innermost (closeTo s.width s.levels) = s.width
    · rw [indentation_of_eq hdeeper hfits]
      exact hdedents _
    · rw [indentation_of_ne hdeeper hfits]
      exact List.forall_mem_append.mpr ⟨hdedents _, List.forall_mem_singleton.mpr rfl⟩

section

variable {s : Layout} {p : Piece} {rest : List Char}

/-- Outside brackets a line break is a token. -/
theorem fate_newline {text : List Char} (h : s.nesting = 0) :
    s.fate ⟨.token .newline, text⟩ = .token ⟨.newline, "\\n", s.line, s.spanOf text⟩ :=
  if_pos h

/-- Inside brackets a line break is passed over. -/
theorem fate_joined {text : List Char} (h : s.nesting ≠ 0) :
    s.fate ⟨.token .newline, text⟩ = .joined :=
  if_neg h

/-- Any other token is read off the text of its piece. -/
theorem fate_token {kind : Kind} {text : List Char} (h : kind ≠ .newline) :
    s.fate ⟨.token kind, text⟩ = .token ⟨kind, String.ofList text, s.line, s.spanOf text⟩ := by
  cases kind with
  | newline => exact absurd rfl h
  | _ => rfl

/-- What is read off a piece has the span of the piece. -/
theorem hasSpan_fate (s : Layout) (p : Piece) : (s.fate p).HasSpan (s.spanOf p.text) := by
  unfold fate
  split
  · trivial
  · trivial
  · rfl
  · rfl
  · rfl
  · split
    · rfl
    · trivial
  · rfl

/-- What is scanned at a region of proper pieces has text. -/
theorem hasText_fate (hp : p.Proper rest) : ∀ x ∈ (s.fate p).lexemes, x.hasText := by
  obtain ⟨role, text⟩ := p
  cases role with
  | blank => simp [fate, Fate.lexemes]
  | comment => simp [fate, Fate.lexemes]
  | stray => simp [fate, Fate.lexemes, Lexeme.hasText]
  | unterminated => simp [fate, Fate.lexemes, Lexeme.hasText]
  | malformed => exact hp.elim
  | token kind =>
    by_cases hkind : kind = .newline
    · subst hkind
      by_cases hzero : s.nesting = 0
      · rw [fate_newline hzero]
        exact List.forall_mem_singleton.mpr rfl
      · rw [fate_joined hzero]
        simp [Fate.lexemes]
    · have hkind' := Kind.isSynthesized_of_isStructural (hp.of_token hkind).1
      simp [fate_token hkind, Fate.lexemes, Lexeme.hasText, Token.hasText, hkind']

/-- Changes of indentation stand in front of the token of a piece; all else that a piece contributes
is what becomes of it. -/
theorem exists_emit_eq (s : Layout) (p : Piece) :
    ∃ xs, s.emit p = xs ++ (s.fate p).lexemes ∧ (∀ x ∈ xs, x.IsMarginAt s.offset) ∧
      (xs = [] ∨ ∃ t, s.fate p = .token t) := by
  obtain ⟨role, text⟩ := p
  cases role with
  | token kind =>
    by_cases hkind : kind = .newline
    · subst hkind
      refine ⟨[], ?_, by simp, .inl rfl⟩
      by_cases hzero : s.nesting = 0
      · rw [emit_newline hzero, fate_newline hzero]
        rfl
      · rw [emit, if_neg hzero, fate_joined hzero]
        rfl
    · refine ⟨if s.lineStart then s.indentation else [], ?_, ?_, .inr ⟨_, fate_token hkind⟩⟩
      · rw [emit_token hkind, fate_token hkind]
        rfl
      · split
        · exact s.isMarginAt_indentation
        · simp
  | _ => exact ⟨[], rfl, by simp, .inl rfl⟩

/-- What is read off a piece fits its text, where the nesting is that of the tokens in front. -/
theorem fits_fate (hp : p.Proper rest) {before : List Token}
    (hnesting : s.nesting = nestingOver 0 before) : (s.fate p).Fits p.text rest before := by
  obtain ⟨role, text⟩ := p
  cases role with
  | blank => exact hp
  | comment => exact hp
  | stray =>
    obtain ⟨c, rfl⟩ := hp
    exact .inl ⟨rfl, rfl⟩
  | unterminated =>
    obtain ⟨cs, rfl, hcs, rfl⟩ := hp
    exact .inr ⟨rfl, rfl, cs, rfl, hcs⟩
  | malformed => exact hp.elim
  | token kind =>
    by_cases hkind : kind = .newline
    · subst hkind
      by_cases hzero : s.nesting = 0
      · rw [fate_newline hzero]
        exact ⟨rfl, hp⟩
      · rw [fate_joined hzero]
        exact ⟨hp, hnesting ▸ Nat.pos_of_ne_zero hzero⟩
    · have htext := Kind.isSynthesized_of_isStructural (hp.of_token hkind).1
      rw [fate_token hkind]
      exact ⟨by simp [Token.hasText, htext], by simp [Token.Quotes, hkind]⟩

/-- Only the token of a piece opens or closes brackets. -/
theorem nesting_next_fate (s : Layout) (p : Piece) :
    (s.next p).nesting = nestingOver s.nesting (s.fate p).token?.toList := by
  obtain ⟨role, text⟩ := p
  cases role with
  | token kind =>
    by_cases hkind : kind = .newline
    · subst hkind
      by_cases hzero : s.nesting = 0
      · rw [fate_newline hzero]
        rfl
      · rw [fate_joined hzero]
        rfl
    · rw [fate_token hkind, next_token hkind]
      rfl
  | _ => rfl

end

/-- Every region is one of the text, where the text in front of the scan and the tokens in front of
it are given. -/
theorem isOf_regions {ps : List Piece} (hps : AllProper ps) {s : Layout} (front : List Char)
    (ts : List Token) (hoffset : s.offset = Text.byteLength front)
    (hnesting : s.nesting = nestingOver 0 ts) {before after : List Region} {r : Region}
    (h : s.regions ps = before ++ r :: after) :
    r.IsOf (front ++ ps.flatMap Piece.text) (ts ++ regionTokens before) := by
  induction ps generalizing s front ts before with
  | nil => simp [regions] at h
  | cons p ps ih =>
    obtain ⟨htext, hp, hps⟩ := hps
    rw [regions] at h
    rw [List.flatMap_cons]
    cases before with
    | nil =>
      obtain ⟨rfl, -⟩ := List.cons.inj h
      have hat : Text.At (front ++ (p.text ++ ps.flatMap Piece.text)) (s.spanOf p.text) p.text
          (ps.flatMap Piece.text) :=
        ⟨front, rfl, hoffset.symm, by rw [Text.byteLength_append, ← hoffset]; rfl⟩
      rw [regionTokens_nil, List.append_nil]
      exact ⟨s.hasSpan_fate p, p.text, _, htext, hat, fits_fate hp hnesting⟩
    | cons r' before =>
      obtain ⟨rfl, hrs⟩ := List.cons.inj h
      have hoffset' : (s.next p).offset = Text.byteLength (front ++ p.text) := by
        rw [offset_next, hoffset, Text.byteLength_append]
      have hnesting' : (s.next p).nesting = nestingOver 0 (ts ++ (s.fate p).token?.toList) := by
        rw [nesting_next_fate, hnesting, nestingOver_append]
      have hrest := ih hps _ _ hoffset' hnesting' hrs
      rw [List.append_assoc, List.append_assoc] at hrest
      rwa [regionTokens_cons]

/-- What is scanned about the text of a source is scanned at its regions. -/
theorem filter_output {ps : List Piece} (hps : AllProper ps) (s : Layout) :
    (s.output ps).filter Lexeme.hasText = (s.regions ps).flatMap (·.fate.lexemes) := by
  induction ps generalizing s with
  | nil =>
    simp [output_nil, finish, regions, dedentAt, Lexeme.hasText, Token.hasText,
      Kind.isSynthesized]
  | cons p ps ih =>
    obtain ⟨-, hp, hps⟩ := hps
    obtain ⟨xs, hemit, hxs, -⟩ := s.exists_emit_eq p
    have hmargins : xs.filter Lexeme.hasText = [] := by
      rw [List.filter_eq_nil_iff]
      intro x hx
      simp [(hxs x hx).hasText]
    have htext : (s.fate p).lexemes.filter Lexeme.hasText = (s.fate p).lexemes :=
      List.filter_eq_self.mpr (hasText_fate hp)
    rw [output_cons, hemit, List.filter_append, List.filter_append, hmargins, htext, ih hps,
      regions, List.flatMap_cons]
    rfl

/-! ## The margin -/

/-- Every change of indentation has the empty span where the next token with text starts. -/
def Aligned (stop : Nat) : List Token → Prop
  | [] => True
  | t :: ts =>
    (t.kind = .indent ∨ t.kind = .dedent → t.span = .point (textStart stop ts)) ∧ Aligned stop ts

/-- In aligned tokens every level opens and ends where the next text starts. -/
theorem Aligned.span_eq {stop : Nat} {before after : List Token} {t : Token}
    (h : Aligned stop (before ++ t :: after)) (ht : t.kind = .indent ∨ t.kind = .dedent) :
    t.span = .point (textStart stop after) := by
  induction before with
  | nil => exact h.1 ht
  | cons t' before ih => exact ih h.2

/-- Tokens without text in front do not change where the next text starts. -/
theorem textStart_append {stop : Nat} {ms : List Token} (h : ∀ m ∈ ms, m.hasText = false)
    (ts : List Token) : textStart stop (ms ++ ts) = textStart stop ts := by
  have hnone : ms.find? Token.hasText = none := by simpa using h
  rw [textStart, List.find?_append, hnone]
  rfl

/-- A token with text is the next text. -/
theorem textStart_cons {stop : Nat} {t : Token} (h : t.hasText) (ts : List Token) :
    textStart stop (t :: ts) = t.span.start := by
  rw [textStart, List.find?_cons_of_pos h]
  rfl

/-- A token with text takes no part in the indentation. -/
theorem Aligned.cons {stop : Nat} {t : Token} (ht : t.hasText) {ts : List Token}
    (h : Aligned stop ts) : Aligned stop (t :: ts) := by
  refine ⟨?_, h⟩
  rintro (hkind | hkind) <;> simp [Token.hasText, hkind, Kind.isSynthesized] at ht

/-- Changes of indentation where the next token with text starts. -/
theorem Aligned.append {stop : Nat} {ms ts : List Token} {offset : Nat}
    (hms : ∀ m ∈ ms, (Lexeme.token m).IsMarginAt offset) (hoffset : textStart stop ts = offset)
    (h : Aligned stop ts) : Aligned stop (ms ++ ts) := by
  induction ms with
  | nil => exact h
  | cons m ms ih =>
    obtain ⟨hm, hms⟩ := List.forall_mem_cons.mp hms
    have hstart : textStart stop (ms ++ ts) = offset :=
      (textStart_append (fun m hm => (hms m hm).hasText) ts).trans hoffset
    exact ⟨fun _ => hstart ▸ hm.2, ih hms⟩

/-- The tokens of some pieces are aligned. -/
theorem aligned_output {ps : List Piece} (hps : AllProper ps) (s : Layout) :
    Aligned (s.after ps).offset (tokensOf (s.output ps)) := by
  induction ps generalizing s with
  | nil =>
    have hdedents : ∀ d ∈ List.replicate s.levels.length s.dedentAt,
        (Lexeme.token d).IsMarginAt s.offset := by
      intro d hd
      rw [List.eq_of_mem_replicate hd]
      exact s.isMarginAt_dedentAt
    have hend : Aligned s.offset [s.endAt] := ⟨by simp [endAt], trivial⟩
    rw [output_nil, tokensOf_finish]
    exact hend.append hdedents rfl
  | cons p ps ih =>
    obtain ⟨-, hp, hps⟩ := hps
    obtain ⟨xs, hemit, hxs, hfate⟩ := s.exists_emit_eq p
    have hmargins : ∀ m ∈ tokensOf xs, (Lexeme.token m).IsMarginAt s.offset := by
      intro m hm
      obtain ⟨x, hx, hxm⟩ := List.mem_filterMap.mp hm
      cases x with
      | token t => exact Option.some.inj hxm ▸ hxs _ hx
      | error e => cases hxm
    have hrest := ih hps (s.next p)
    rw [output_cons, hemit, tokensOf_append, tokensOf_append, List.append_assoc, tokensOf_lexemes]
    cases h : s.fate p with
    | token t =>
      have htext : t.hasText := hasText_fate (s := s) hp (.token t) (by simp [h, Fate.lexemes])
      have hspan : t.span = s.spanOf p.text := by simpa [h, Fate.HasSpan] using s.hasSpan_fate p
      refine (hrest.cons htext).append hmargins ?_
      exact (textStart_cons htext _).trans (congrArg Span.start hspan)
    | _ =>
      obtain rfl := hfate.resolve_right (by simp [h])
      exact hrest

end Layout

/-! ## Whole sources -/

/-- The scan of a source covers it. -/
theorem covers_scan (source : String) :
    Covers source (Layout.regions {} (pieces source.toList)) := by
  have hps := allProper_pieces source.toList
  have htiles := Layout.tiles_regions hps {}
  rw [offset_after_pieces] at htiles
  have hfilter := Layout.filter_output hps {}
  have herrors : (scan source).errors =
      (Layout.output {} (pieces source.toList)).filterMap Lexeme.error? :=
    congrArg (List.filterMap Lexeme.error?) (lexemes_eq source.toList)
  refine ⟨fun byte hbyte => htiles.existsUnique (Nat.zero_le _) hbyte, htiles.pairwise, ?_, ?_, ?_⟩
  · rw [tokens_scan, ← tokensOf_filter_hasText, hfilter, tokensOf_regions]
  · rw [herrors, ← errors_filter_hasText, hfilter, errors_regions]
  · intro before r after h
    have hof := Layout.isOf_regions hps [] [] rfl rfl h
    rwa [flatMap_text_pieces] at hof

namespace Covers

variable {source : String} {regions : List Region} (hcovers : Covers source regions)

include hcovers

/-- Every region tells what is at its place in the source. -/
theorem isOf_of_mem {r : Region} (hr : r ∈ regions) : ∃ before, r.IsOf source.toList before := by
  obtain ⟨before, after, h⟩ := List.append_of_mem hr
  exact ⟨_, hcovers.regions before r after h⟩

/-- A token with text is what a region of the source is read as. -/
theorem exists_region {t : Token} (ht : t ∈ (scan source).tokens) (htext : t.hasText) :
    ∃ r ∈ regions, r.fate = .token t := by
  have hmem : t ∈ regionTokens regions := by
    rw [hcovers.tokens]
    exact List.mem_filter.mpr ⟨ht, htext⟩
  obtain ⟨r, hr, hfate⟩ := List.mem_filterMap.mp hmem
  exact ⟨r, hr, Fate.token?_eq_some hfate⟩

/-- A token with text quotes the characters at its span, which is not empty. -/
theorem quotes {t : Token} (ht : t ∈ (scan source).tokens) (htext : t.hasText) :
    t.span.start < t.span.stop ∧
      ∃ inside behind, Text.At source.toList t.span inside behind ∧ t.Quotes inside := by
  obtain ⟨r, hr, hfate⟩ := hcovers.exists_region ht htext
  obtain ⟨before, hspan, inside, behind, hne, hat, hfits⟩ := hcovers.isOf_of_mem hr
  rw [hfate] at hspan hfits
  have hspan' : t.span = r.span := hspan
  rw [hspan']
  exact ⟨hat.start_lt_stop hne, inside, behind, hat, hfits.2⟩

/-- The spans of tokens with text increase and do not overlap. -/
theorem ordered_tokens :
    ((scan source).tokens.filter Token.hasText).Pairwise (·.span.stop ≤ ·.span.start) := by
  have hspan (r : Region) (hr : r ∈ regions) (t : Token) (ht : r.fate.token? = some t) :
      t.span = r.span := by
    obtain ⟨before, hof⟩ := hcovers.isOf_of_mem hr
    have hhas := hof.hasSpan
    rwa [Fate.token?_eq_some ht] at hhas
  rw [← hcovers.tokens, regionTokens, List.pairwise_filterMap]
  refine hcovers.ordered.imp_of_mem ?_
  intro r r' hr hr' hle t ht t' ht'
  rwa [hspan r hr t ht, hspan r' hr' t' ht']

/-- An error that is not about indentation is about a single character or an open string. -/
theorem fault_of_mem {e : LexicalError} (he : e ∈ (scan source).errors) :
    e.fault = .inconsistentDedent ∨ e.fault = .unexpectedCharacter ∨
      e.fault = .unterminatedString := by
  by_cases hdedent : e.fault = .inconsistentDedent
  · exact .inl hdedent
  · have hmem : e ∈ regionFaults regions := by
      rw [hcovers.faults]
      exact List.mem_filter.mpr ⟨he, by simpa using hdedent⟩
    obtain ⟨r, hr, hfate⟩ := List.mem_filterMap.mp hmem
    obtain ⟨before, -, inside, behind, -, -, hfits⟩ := hcovers.isOf_of_mem hr
    rw [Fate.fault?_eq_some hfate] at hfits
    rcases hfits with ⟨hfault, -⟩ | ⟨hfault, -⟩
    · exact .inr (.inl hfault)
    · exact .inr (.inr hfault)

end Covers

/-- Every byte of a source belongs to one token, one error about its text, a run of blanks, a
comment or a line break inside brackets, and to one of them only. Tokens quote the text at their
spans, and changes of indentation stand in front of the next token with text. Every number literal
has a value. -/
theorem scan_lossless (source : String) :
    (∃ regions, Covers source regions) ∧ Placed source (scan source).tokens ∧
      ∀ e ∈ (scan source).errors, ∀ text, e.fault ≠ .invalidNumber text := by
  have hcovers := covers_scan source
  have haligned := Layout.aligned_output (allProper_pieces source.toList) {}
  rw [offset_after_pieces, ← tokens_scan] at haligned
  have hmargins (before : List Token) (t : Token) (after : List Token)
      (h : (scan source).tokens = before ++ t :: after) (ht : t.kind = .indent ∨ t.kind = .dedent) :
      t.span = .point (textStart source.utf8ByteSize after) := by
    rw [h] at haligned
    exact haligned.span_eq ht
  refine ⟨⟨_, hcovers⟩, ⟨fun t => hcovers.quotes, hcovers.ordered_tokens, hmargins⟩, ?_⟩
  intro e he text
  rcases hcovers.fault_of_mem he with hfault | hfault | hfault <;> simp [hfault]

end Offside
