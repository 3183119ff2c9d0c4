import Offside.Console.Highlight
import Offside.Proofs.Coverage

/-!
# Highlighting changes no text

A highlighted line is the line itself with its literals and reserved words painted. Their spans lie
one behind the other and between characters, so the cursor never stands behind the next token to
paint: no token with a colour is passed over, and no slice of the line cuts a character in two.
-/

namespace Offside

namespace Text

variable {cs inside behind : List Char} {span : Span}

/-! ## Slices -/

/-- Only the empty text has no bytes. -/
theorem eq_nil_of_byteLength {cs : List Char} (h : byteLength cs = 0) : cs = [] := by
  by_contra hne
  exact Nat.ne_of_gt (byteLength_pos hne) h

/-- Of two starts of a text the one with fewer bytes is a start of the other one. -/
theorem exists_between {front front' rest rest' : List Char} (h : front ++ rest = front' ++ rest')
    (hle : byteLength front ≤ byteLength front') :
    ∃ gap, front' = front ++ gap ∧ rest = gap ++ rest' := by
  rcases List.append_eq_append_iff.mp h with ⟨gap, hfront, hrest⟩ | ⟨more, hfront, hrest⟩
  · exact ⟨gap, hfront, hrest⟩
  · rw [hfront, byteLength_append] at hle
    obtain rfl : more = [] := eq_nil_of_byteLength (by omega)
    exact ⟨[], by simpa using hfront.symm, by simpa using hrest.symm⟩

/-- What lies in front of a span is passed over. -/
theorem slice_go_front {front : List Char} {offset : Nat}
    (h : offset + byteLength front = span.start) (cs : List Char) :
    slice.go span offset (front ++ cs) = slice.go span span.start cs := by
  induction front generalizing offset with
  | nil =>
    obtain rfl : offset = span.start := h
    rfl
  | cons c front ih =>
    have hpos := c.utf8Size_pos
    rw [byteLength_cons] at h
    rw [List.cons_append, slice.go, if_pos (by omega)]
    exact ih (by omega)

/-- What lies inside a span is taken whole. -/
theorem slice_go_inside {offset : Nat} (hstart : span.start ≤ offset)
    (hstop : offset + byteLength inside = span.stop) :
    slice.go span offset (inside ++ behind) = inside := by
  induction inside generalizing offset with
  | nil =>
    have hend : offset = span.stop := hstop
    cases behind with
    | nil => rfl
    | cons c behind => rw [List.nil_append, slice.go, if_neg (by omega), if_neg (by omega)]
  | cons c inside ih =>
    have hpos := c.utf8Size_pos
    rw [byteLength_cons] at hstop
    rw [List.cons_append, slice.go, if_neg (by omega), if_pos (by omega),
      ih (by omega) (by omega)]

/-- A slice between characters is the text there. -/
theorem At.slice_eq (h : At cs span inside behind) : slice cs span = inside := by
  obtain ⟨front, rfl, hstart, hstop⟩ := h
  rw [byteLength_append] at hstop
  rw [slice, slice_go_front (by omega), slice_go_inside (Nat.le_refl _) (by omega)]

end Text

/-- Whether tokens of this kind are literals or reserved words. -/
def Kind.isVivid : Kind → Bool
  | .string _ | .number _ | .keyword _ => true
  | _ => false

/-- The literals and reserved words among some tokens. -/
def vivid (ts : List Token) : List Token := ts.filter (·.kind.isVivid)

/-- A coloured token stays among the coloured ones. -/
theorem vivid_cons_of_pos {t : Token} (h : t.kind.isVivid) (ts : List Token) :
    vivid (t :: ts) = t :: vivid ts :=
  List.filter_cons_of_pos h

/-- Any other token is left out. -/
theorem vivid_cons_of_neg {t : Token} (h : t.kind.isVivid = false) (ts : List Token) :
    vivid (t :: ts) = vivid ts :=
  List.filter_cons_of_neg (by simp [h])

/-- No coloured token is synthesized. -/
theorem Kind.isSynthesized_of_isVivid {kind : Kind} (h : kind.isVivid) :
    kind.isSynthesized = false := by
  cases kind with
  | indent => cases h
  | dedent => cases h
  | endOfInput => cases h
  | _ => rfl

namespace Console

/-! ## Colours -/

/-- The colours of literals and reserved words, as the numbers that a terminal knows them by. The
names of constants have a colour of their own among the reserved words. -/
inductive HasColour : Kind → String → Prop
  | string (contents : String) : HasColour (.string contents) "32"
  | number (value : Float) : HasColour (.number value) "33"
  | constant {k : Keyword} : k = .true_ ∨ k = .false_ ∨ k = .none_ → HasColour (.keyword k) "35"
  | word {k : Keyword} : k ≠ .true_ → k ≠ .false_ → k ≠ .none_ → HasColour (.keyword k) "1;34"

/-- A text between the escape that sets a colour and the escape that ends it. -/
def inColour (colour : String) (text : List Char) : List Char :=
  ("\x1b[" ++ colour ++ "m" ++ String.ofList text ++ "\x1b[0m").toList

/-- The constants among the keywords are the truth values and none. -/
theorem isConstant_iff {k : Keyword} :
    k.isConstant ↔ k = .true_ ∨ k = .false_ ∨ k = .none_ := by
  cases k <;> decide

/-- The highlighter knows the colours. -/
theorem colour?_eq_some_iff {kind : Kind} {colour : String} :
    colour? kind = some colour ↔ HasColour kind colour := by
  constructor
  · intro h
    cases kind with
    | string contents =>
      cases h
      exact .string contents
    | number value =>
      cases h
      exact .number value
    | keyword k =>
      obtain rfl := Option.some.inj h
      by_cases hconstant : k.isConstant
      · rw [if_pos hconstant]
        exact .constant (isConstant_iff.mp hconstant)
      · rw [if_neg hconstant]
        obtain ⟨htrue, hfalse, hnone⟩ :=
          (not_or.trans (and_congr_right fun _ => not_or)).mp (mt isConstant_iff.mpr hconstant)
        exact .word htrue hfalse hnone
    | _ => cases h
  · intro h
    cases h with
    | string => rfl
    | number => rfl
    | constant hk => rw [colour?, if_pos (isConstant_iff.mpr hk)]
    | word htrue hfalse hnone =>
      rw [colour?, if_neg fun h => (isConstant_iff.mp h).elim htrue (Or.elim · hfalse hnone)]

/-- The literals and the reserved words have a colour, and nothing else has. -/
theorem isSome_colour? (kind : Kind) : (colour? kind).isSome = kind.isVivid := by
  cases kind <;> rfl

/-- Only literals and reserved words have a colour. -/
theorem colour?_eq_none {kind : Kind} (h : kind.isVivid = false) : colour? kind = none := by
  rw [← isSome_colour?] at h
  exact Option.isNone_iff_eq_none.mp (Option.isSome_eq_false_iff.mp h)

/-- Every coloured kind has a colour. -/
theorem exists_colour? {kind : Kind} (h : kind.isVivid) : ∃ colour, colour? kind = some colour := by
  rw [← isSome_colour?] at h
  exact Option.isSome_iff_exists.mp h

/-- Painting puts the escapes around a text. -/
theorem paint_eq (colour : String) (text : List Char) :
    paint colour text = inColour colour text := by
  simp [paint, inColour]

/-! ## Strokes -/

/-- What highlighting does to a line, stroke by stroke. -/
inductive Stroke where
  /-- A slice of the line is copied. -/
  | copied (span : Span)
  /-- A slice of the line is painted. -/
  | painted (colour : String) (span : Span)
  /-- A token with a colour is passed over, because it starts in front of the cursor or ends behind
  the line. -/
  | skipped (t : Token)

/-- The strokes that highlight a line from the cursor on. -/
def strokes (line : List Char) (cursor : Nat) : List Token → List Stroke
  | [] => [.copied ⟨cursor, Text.byteLength line⟩]
  | t :: ts =>
    match colour? t.kind with
    | none => strokes line cursor ts
    | some colour =>
      if t.span.start < cursor ∨ Text.byteLength line < t.span.stop then
        .skipped t :: strokes line cursor ts
      else
        .copied ⟨cursor, t.span.start⟩ :: .painted colour t.span :: strokes line t.span.stop ts

/-- What a stroke writes. -/
def Stroke.write (line : List Char) : Stroke → List Char
  | .copied span => Text.slice line span
  | .painted colour span => inColour colour (Text.slice line span)
  | .skipped _ => []

/-- Whether a stroke passes over no token and cuts the line between characters. -/
def Stroke.Clean (line : List Char) : Stroke → Prop
  | .copied span | .painted _ span => ∃ inside behind, Text.At line span inside behind
  | .skipped _ => False

/-- Highlighting is what its strokes write. -/
theorem highlightFrom_eq (line : List Char) (cursor : Nat) (ts : List Token) :
    highlightFrom line cursor ts = (strokes line cursor ts).flatMap (Stroke.write line) := by
  fun_induction highlightFrom line cursor ts with
  | case1 cursor => simp [strokes, Stroke.write]
  | case2 cursor t ts hcolour ih => rw [ih, strokes, hcolour]
  | case3 cursor t ts colour hcolour hskip ih =>
    rw [ih, strokes, hcolour]
    simp [hskip, Stroke.write]
  | case4 cursor t ts colour hcolour hpaint ih =>
    rw [ih, strokes, hcolour]
    simp [hpaint, Stroke.write, paint_eq]

/-! ## Patches -/

/-- A painted token, with the text that is copied in front of it. -/
structure Patch where
  gap : List Char
  token : Token
  text : List Char
  colour : String

/-- The text of a patch as it stands in the line. -/
def Patch.plain (p : Patch) : List Char := p.gap ++ p.text

/-- The text of a patch as it is written. -/
def Patch.painted (p : Patch) : List Char := p.gap ++ inColour p.colour p.text

/-- A patch whose token has its colour and stands at its text, where the offset of the patch is
given. -/
structure Patch.Fits (offset : Nat) (p : Patch) : Prop where
  colour : HasColour p.token.kind p.colour
  lexeme : p.token.lexeme = String.ofList p.text
  start : p.token.span.start = offset + Text.byteLength p.gap
  stop : p.token.span.stop = offset + Text.byteLength p.plain

/-- Patches that fit one behind the other. -/
def PatchesFit (offset : Nat) : List Patch → Prop
  | [] => True
  | p :: ps => p.Fits offset ∧ PatchesFit (offset + Text.byteLength p.plain) ps

/-- Tokens that can be painted in a line behind `front`, one behind the other. -/
structure Paintable (line front : List Char) (ts : List Token) : Prop where
  at_span : ∀ t ∈ ts, t.kind.isVivid →
    ∃ inside behind, Text.At line t.span inside behind ∧ t.lexeme = String.ofList inside
  ordered : (vivid ts).Pairwise (·.span.stop ≤ ·.span.start)
  start_ge : ∀ t ∈ ts, t.kind.isVivid → Text.byteLength front ≤ t.span.start

/-- The rest of a line from an offset on, as patches and what is left behind them, and the strokes
that highlight it. -/
structure Patched (line : List Char) (offset : Nat) (rest : List Char) (ts : List Token)
    (patches : List Patch) (last : List Char) : Prop where
  tokens : patches.map Patch.token = vivid ts
  fit : PatchesFit offset patches
  text : rest = patches.flatMap Patch.plain ++ last
  written : (strokes line offset ts).flatMap (Stroke.write line) =
    patches.flatMap Patch.painted ++ last
  clean : ∀ s ∈ strokes line offset ts, s.Clean line

section

variable {line front rest : List Char} {t : Token} {ts : List Token}

/-- What is paintable stays so without its first token. -/
theorem Paintable.tail (h : Paintable line front (t :: ts)) : Paintable line front ts where
  at_span := (List.forall_mem_cons.mp h.at_span).2
  ordered := h.ordered.sublist ((List.sublist_cons_self t ts).filter _)
  start_ge := (List.forall_mem_cons.mp h.start_ge).2

/-- Behind a token that is painted the others can still be painted. -/
theorem Paintable.behind (h : Paintable line front (t :: ts)) (hvivid : t.kind.isVivid)
    {front' : List Char} (hfront : Text.byteLength front' = t.span.stop) :
    Paintable line front' ts where
  at_span := h.tail.at_span
  ordered := h.tail.ordered
  start_ge := by
    intro u hu hvivid'
    have hordered := h.ordered
    rw [vivid_cons_of_pos hvivid] at hordered
    rw [hfront]
    exact (List.pairwise_cons.mp hordered).1 u (List.mem_filter.mpr ⟨hu, hvivid'⟩)

/-- A token without a colour is left alone. -/
theorem Patched.plain {offset : Nat} {patches : List Patch} {last : List Char}
    (hvivid : t.kind.isVivid = false) (h : Patched line offset rest ts patches last) :
    Patched line offset rest (t :: ts) patches last := by
  have hstrokes : strokes line offset (t :: ts) = strokes line offset ts := by
    rw [strokes, colour?_eq_none hvivid]
  exact ⟨vivid_cons_of_neg hvivid ts ▸ h.tokens, h.fit, h.text, hstrokes ▸ h.written,
    hstrokes ▸ h.clean⟩

/-- A token with a colour is painted where it stands. -/
theorem Patched.paint {gap inside behind last : List Char} {patches : List Patch}
    (hline : line = front ++ (gap ++ (inside ++ behind))) (hvivid : t.kind.isVivid)
    (hlexeme : t.lexeme = String.ofList inside)
    (hstart : Text.byteLength (front ++ gap) = t.span.start)
    (hstop : Text.byteLength (front ++ gap ++ inside) = t.span.stop)
    (h : Patched line t.span.stop behind ts patches last) :
    ∃ p, Patched line (Text.byteLength front) (gap ++ (inside ++ behind)) (t :: ts) (p :: patches)
      last := by
  obtain ⟨colour, hcolour⟩ := exists_colour? hvivid
  have hgap : Text.At line ⟨Text.byteLength front, t.span.start⟩ gap (inside ++ behind) :=
    ⟨front, hline, rfl, hstart⟩
  have hinside : Text.At line t.span inside behind :=
    ⟨front ++ gap, by rw [hline, List.append_assoc], hstart, hstop⟩
  have hlength := congrArg Text.byteLength hline
  simp only [Text.byteLength_append] at hstart hstop hlength
  have hstrokes : strokes line (Text.byteLength front) (t :: ts) =
      .copied ⟨Text.byteLength front, t.span.start⟩ :: .painted colour t.span ::
        strokes line t.span.stop ts := by
    rw [strokes, hcolour]
    exact if_neg (by omega)
  have hcolour' : HasColour t.kind colour := colour?_eq_some_iff.mp hcolour
  refine ⟨⟨gap, t, inside, colour⟩, ?_, ⟨⟨hcolour', hlexeme, ?_, ?_⟩, ?_⟩, ?_, ?_, ?_⟩
  · rw [vivid_cons_of_pos hvivid, ← h.tokens, List.map_cons]
  · exact hstart.symm
  · rw [Patch.plain, Text.byteLength_append, ← Nat.add_assoc]
    exact hstop.symm
  · have hoffset : Text.byteLength front + Text.byteLength (gap ++ inside) = t.span.stop := by
      rw [Text.byteLength_append]
      omega
    exact hoffset ▸ h.fit
  · rw [h.text, List.flatMap_cons, Patch.plain, List.append_assoc, List.append_assoc]
  · rw [hstrokes, List.flatMap_cons, List.flatMap_cons, h.written, Stroke.write, Stroke.write,
      hgap.slice_eq, hinside.slice_eq, List.flatMap_cons, Patch.painted, List.append_assoc,
      List.append_assoc]
  · rw [hstrokes]
    exact List.forall_mem_cons.mpr
      ⟨⟨gap, _, hgap⟩, List.forall_mem_cons.mpr ⟨⟨inside, _, hinside⟩, h.clean⟩⟩

/-- Tokens that can be painted are. -/
theorem exists_patched (hline : line = front ++ rest) (hts : Paintable line front ts) :
    ∃ patches last, Patched line (Text.byteLength front) rest ts patches last := by
  induction ts generalizing front rest with
  | nil =>
    have hat : Text.At line ⟨Text.byteLength front, Text.byteLength line⟩ rest [] :=
      ⟨front, by rw [hline, List.append_nil], rfl, by rw [hline]⟩
    refine ⟨[], rest, rfl, trivial, rfl, ?_, List.forall_mem_singleton.mpr ⟨rest, [], hat⟩⟩
    rw [strokes, List.flatMap_singleton, Stroke.write, hat.slice_eq]
    rfl
  | cons t ts ih =>
    cases hvivid : t.kind.isVivid with
    | false =>
      obtain ⟨patches, last, h⟩ := ih hline hts.tail
      exact ⟨patches, last, h.plain hvivid⟩
    | true =>
      obtain ⟨inside, behind, ⟨front', hfront', hstart, hstop⟩, hlexeme⟩ :=
        hts.at_span t List.mem_cons_self hvivid
      have hle := hts.start_ge t List.mem_cons_self hvivid
      -- The token starts at the cursor or behind it, so what lies between is copied first.
      obtain ⟨gap, rfl, rfl⟩ := Text.exists_between (hline.symm.trans hfront') (hstart ▸ hle)
      have hline' : line = (front ++ gap ++ inside) ++ behind := by
        rw [hfront', List.append_assoc _ inside]
      obtain ⟨patches, last, h⟩ := ih hline' (hts.behind hvivid hstop)
      rw [hstop] at h
      obtain ⟨p, hp⟩ := h.paint hline hvivid hlexeme hstart hstop
      exact ⟨p :: patches, last, hp⟩

end

/-! ## Whole lines -/

/-- The tokens of a line can be painted. -/
theorem paintable_scan (line : String) : Paintable line.toList [] (scan line).tokens := by
  have hcovers := covers_scan line
  have htext {t : Token} (hvivid : t.kind.isVivid) : t.hasText := by
    simp [Token.hasText, Kind.isSynthesized_of_isVivid hvivid]
  refine ⟨fun t ht hvivid => ?_, ?_, fun _ _ _ => Nat.zero_le _⟩
  · obtain ⟨-, inside, behind, hat, hquotes⟩ := hcovers.quotes ht (htext hvivid)
    have hkind : t.kind ≠ .newline := by
      intro h
      rw [h] at hvivid
      cases hvivid
    rw [Token.Quotes, if_neg hkind] at hquotes
    exact ⟨inside, behind, hat, hquotes⟩
  · refine hcovers.ordered_tokens.sublist ?_
    exact List.monotone_filter_right _ fun t hvivid => htext hvivid

/-- A highlighted line is the line with its literals and reserved words painted where they stand,
and all other text copied. No token with a colour is passed over, and the line is cut between
characters only. -/
theorem highlight_patches (line : String) :
    (highlight line).toList =
        (strokes line.toList 0 (scan line).tokens).flatMap (Stroke.write line.toList) ∧
      (∀ s ∈ strokes line.toList 0 (scan line).tokens, s.Clean line.toList) ∧
      ∃ patches last, patches.map Patch.token = vivid (scan line).tokens ∧
        PatchesFit 0 patches ∧ line.toList = patches.flatMap Patch.plain ++ last ∧
        (highlight line).toList = patches.flatMap Patch.painted ++ last := by
  have hwritten : (highlight line).toList =
      (strokes line.toList 0 (scan line).tokens).flatMap (Stroke.write line.toList) := by
    rw [highlight, String.toList_ofList, highlightFrom_eq]
  obtain ⟨patches, last, h⟩ := exists_patched (List.nil_append _).symm (paintable_scan line)
  exact ⟨hwritten, h.clean, patches, last, h.tokens, h.fit, h.text, hwritten.trans h.written⟩

end Console

end Offside
