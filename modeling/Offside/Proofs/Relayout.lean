import Offside.Proofs.Streams

/-!
# Canonical layout

A scanned token stream is written back as text in a canonical layout: one space for each open level
at the start of a line, and one space between the tokens of a line. Scanning that text yields the
tokens of the stream again, without errors. So nothing about the widths of levels, about tabs,
comments or the spacing of a source matters beyond its token stream.
-/

namespace Offside

/-- A token stream as text, with the number of open levels and whether the last token in front is
one that stands for the layout. -/
def renderFrom (depth : Nat) (fresh : Bool) : List Token → List Char
  | [] => []
  | t :: ts =>
    match t.kind with
    | .newline => '\n' :: renderFrom depth true ts
    | .indent => renderFrom (depth + 1) true ts
    | .dedent => renderFrom (depth - 1) true ts
    | .endOfInput => renderFrom depth true ts
    | _ =>
      (if fresh then List.replicate depth ' ' else [' ']) ++
        (t.lexeme.toList ++ renderFrom depth false ts)

/-- A token stream as text in the canonical layout. -/
def render (tokens : List Token) : String := String.ofList (renderFrom 0 true tokens)

/-- What of a token does not depend on its place. -/
def Token.spelling (t : Token) : Kind × String := (t.kind, t.lexeme)

/-- How scanning spells the tokens that stand for the layout. -/
def Kind.mark? : Kind → Option String
  | .newline => some "\\n"
  | .indent => some "<indent>"
  | .dedent => some "<dedent>"
  | .endOfInput => some ""
  | _ => none

/-- A token that is spelled as scanning spells its kind. -/
structure Token.Spelled (t : Token) : Prop where
  mark : ∀ mark, t.kind.mark? = some mark → t.lexeme = mark
  alone : t.kind.isStructural = false → Piece.StandsAlone ⟨.token t.kind, t.lexeme.toList⟩

/-- A spelled mark has one spelling. -/
theorem Token.Spelled.spelling_eq {t : Token} {kind : Kind} {mark : String} (h : t.Spelled)
    (hkind : t.kind = kind) (hmark : kind.mark? = some mark) : t.spelling = (kind, mark) :=
  Prod.ext hkind (h.mark mark (hkind ▸ hmark))

/-- A mark is spelled by its own text. -/
theorem spelled_mark {kind : Kind} {mark : String} {line : Nat} {span : Span}
    (h : kind.mark? = some mark) : Token.Spelled ⟨kind, mark, line, span⟩ where
  mark := fun _ h' => Option.some.inj (h.symm.trans h')
  alone := by
    intro hkind
    cases kind with
    | newline => cases hkind
    | indent => cases hkind
    | dedent => cases hkind
    | endOfInput => cases hkind
    | _ => cases h

/-- A piece that stands alone spells its token. -/
theorem spelled_text {kind : Kind} {text : List Char} {line : Nat} {span : Span}
    (hkind : kind.isStructural = false) (h : Piece.StandsAlone ⟨.token kind, text⟩) :
    Token.Spelled ⟨kind, String.ofList text, line, span⟩ where
  mark := by
    intro mark hmark
    cases kind with
    | newline => cases hkind
    | indent => cases hkind
    | dedent => cases hkind
    | endOfInput => cases hkind
    | _ => cases hmark
  alone := by
    intro _
    simpa using h

/-! ## The text of a stream -/

section

variable {t : Token} {ts : List Token} {depth n : Nat} {fresh : Bool}

/-- A newline is written as a line break. -/
theorem renderFrom_newline (h : t.kind = .newline) :
    renderFrom depth fresh (t :: ts) = '\n' :: renderFrom depth true ts := by
  rw [renderFrom, h]

/-- An indent is written as a deeper margin. -/
theorem renderFrom_indent (h : t.kind = .indent) :
    renderFrom depth fresh (t :: ts) = renderFrom (depth + 1) true ts := by
  rw [renderFrom, h]

/-- A dedent is written as a shallower margin. -/
theorem renderFrom_dedent (h : t.kind = .dedent) :
    renderFrom depth fresh (t :: ts) = renderFrom (depth - 1) true ts := by
  rw [renderFrom, h]

/-- The end of input is not written. -/
theorem renderFrom_endOfInput (h : t.kind = .endOfInput) : renderFrom depth fresh [t] = [] := by
  rw [renderFrom, h, renderFrom]

/-- Any other token is written behind the margin or one blank. -/
theorem renderFrom_text (h : t.kind.isStructural = false) :
    renderFrom depth fresh (t :: ts) =
      (if fresh then List.replicate depth ' ' else [' ']) ++
        (t.lexeme.toList ++ renderFrom depth false ts) := by
  rw [renderFrom]
  cases hkind : t.kind with
  | newline => simp [hkind, Kind.isStructural] at h
  | indent => simp [hkind, Kind.isStructural] at h
  | dedent => simp [hkind, Kind.isStructural] at h
  | endOfInput => simp [hkind, Kind.isStructural] at h
  | _ => rfl

/-- Nothing is written for what is closed at the end. -/
theorem Laid.renderFrom_ending (h : Laid .ending depth n ts) : renderFrom depth fresh ts = [] := by
  generalize hm : Margin.ending = m at h
  induction h generalizing fresh with
  | finish _ hkind => exact renderFrom_endOfInput hkind
  | newline h _ _ => subst hm; simp at h
  | indent _ _ => cases hm
  | dedent h _ _ => subst hm; simp at h
  | ending _ hkind _ ih =>
    rw [renderFrom_dedent hkind]
    exact ih rfl
  | text h _ _ => exact absurd hm.symm h

/-- What is written behind a token with text of its own is set apart from it. -/
theorem Laid.separated (h : Laid .inLine depth n ts) :
    Piece.Separated (renderFrom depth false ts) := by
  cases h with
  | finish _ hkind => simp [Piece.Separated, renderFrom_endOfInput hkind]
  | newline _ hkind _ => simp [Piece.Separated, renderFrom_newline hkind]
  | dedent hm _ _ => simp at hm
  | @ending _ depth _ _ _ _ hkind h =>
    rw [renderFrom_dedent hkind, Nat.add_sub_cancel, h.renderFrom_ending]
    simp [Piece.Separated]
  | text _ hkind _ => simp [Piece.Separated, renderFrom_text hkind]

end

/-! ## Scanning the text -/

/-- Spaces are cut into one blank. -/
theorem pieces_spaces {count : Nat} {cs : List Char} (hcount : 0 < count)
    (hcs : RunEnds Piece.isGap cs) :
    pieces (List.replicate count ' ' ++ cs) =
      ⟨.blank, List.replicate count ' '⟩ :: pieces cs := by
  obtain ⟨count, rfl⟩ := Nat.exists_eq_succ_of_ne_zero (Nat.ne_of_gt hcount)
  have hspaces : ∀ d ∈ List.replicate count ' ', Piece.isGap d := by
    intro d hd
    rw [List.eq_of_mem_replicate hd]
    decide
  have hcut : Piece.cut ' ' (List.replicate count ' ' ++ cs) =
      (⟨.blank, ' ' :: List.replicate count ' '⟩, cs) :=
    Piece.cutRun_exact (fun _ => .blank) hspaces hcs
  rw [List.replicate_succ, List.cons_append, pieces_cons, hcut]

/-- A piece that stands alone is cut whole in front of a separator. -/
theorem pieces_standsAlone {p : Piece} (h : p.StandsAlone) {rest : List Char}
    (hrest : Piece.Separated rest) : pieces (p.text ++ rest) = p :: pieces rest := by
  obtain ⟨c, cs, htext, hcut⟩ := h
  rw [htext, List.cons_append, pieces_cons, hcut rest hrest]

/-- No token starts with a blank. -/
theorem Piece.StandsAlone.runEnds_gap {kind : Kind} {text : List Char}
    (h : StandsAlone ⟨.token kind, text⟩) (rest : List Char) : RunEnds isGap (text ++ rest) := by
  obtain ⟨c, cs, rfl, hcut⟩ := h
  apply runEnds_cons
  cases hgap : isGap c with
  | false => rfl
  | true =>
    have hblank := hcut [] (by simp [Separated])
    rw [cut, if_pos hgap] at hblank
    simp [cutRun] at hblank

/-- The widths of levels in the canonical layout, innermost first. -/
def rungs : Nat → List Nat
  | 0 => []
  | depth + 1 => (depth + 1) :: rungs depth

/-- There is one rung for each depth. -/
@[simp] theorem length_rungs (depth : Nat) : (rungs depth).length = depth := by
  induction depth with
  | zero => rfl
  | succ depth ih => rw [rungs, List.length_cons, ih]

namespace Layout

/-- The innermost rung is as wide as it is deep. -/
@[simp] theorem innermost_rungs (depth : Nat) : innermost (rungs depth) = depth := by
  cases depth <;> rfl

/-- Closing to a rung leaves the rungs up to it. -/
theorem closeTo_rungs (depth count : Nat) :
    closeTo depth (rungs (depth + count)) = rungs depth := by
  induction count with
  | zero =>
    cases depth with
    | zero => rfl
    | succ depth => simp [rungs, closeTo]
  | succ count ih =>
    have hlt : depth < depth + count + 1 := by omega
    have hclose :
        closeTo depth (rungs (depth + count + 1)) = closeTo depth (rungs (depth + count)) :=
      List.dropWhile_cons_of_pos (decide_eq_true hlt)
    rw [← Nat.add_assoc, hclose, ih]

/-- Spaces go through the layout as one blank. -/
theorem output_spaces (s : Layout) (count : Nat) {cs : List Char} (hcs : RunEnds Piece.isGap cs) :
    s.output (pieces (List.replicate count ' ' ++ cs)) =
      (s.next ⟨.blank, List.replicate count ' '⟩).output (pieces cs) := by
  by_cases hcount : count = 0
  · subst hcount
    rfl
  · rw [pieces_spaces (Nat.pos_of_ne_zero hcount) hcs, output_cons]
    rfl

/-- Spaces are as wide as they are many. -/
theorem blankWidth_spaces (count : Nat) : blankWidth (List.replicate count ' ') = count := by
  induction count with
  | zero => rfl
  | succ count ih =>
    rw [List.replicate_succ, blankWidth, ih, columns]
    omega

/-- The first token of a line or a further one, in front of what is set apart from it. -/
theorem output_text (s : Layout) {t : Token} (ht : t.Spelled) (hkind : t.kind.isStructural = false)
    {rest : List Char} (hrest : Piece.Separated rest) :
    ∃ u : Token, u.spelling = t.spelling ∧
      s.output (pieces (t.lexeme.toList ++ rest)) =
        (if s.lineStart then s.indentation else []) ++
          .token u :: (s.next ⟨.token t.kind, t.lexeme.toList⟩).output (pieces rest) := by
  have hne : t.kind ≠ .newline := Kind.ne_of_isStructural hkind rfl
  have hpieces := pieces_standsAlone (ht.alone hkind) hrest
  refine ⟨⟨t.kind, String.ofList t.lexeme.toList, s.line, s.spanOf t.lexeme.toList⟩, ?_, ?_⟩
  · simp [Token.spelling]
  · rw [hpieces, output_cons, emit_token hne, List.append_assoc]
    rfl

/-- The changes of indentation that the stream has in front of a margin but that the scan, with the
given levels open, finds only behind it. -/
inductive Owes : Margin → Nat → List Nat → List (Kind × String) → Prop
  | opened {depth : Nat} {levels : List Nat} : levels = rungs depth →
    Owes .opened (depth + 1) levels [(.indent, "<indent>")]
  | closed {m : Margin} {depth count : Nat} {levels : List Nat} : m ≠ .opened →
    count = 0 ∨ m = .closed ∨ m = .ending → levels = rungs (depth + count) →
    Owes m depth levels (List.replicate count (.dedent, "<dedent>"))

/-- Nothing is owed where a line starts or goes on. -/
theorem owes_nil {m : Margin} {depth : Nat} {levels : List Nat} (hm : m ≠ .opened)
    (hlevels : levels = rungs depth) : Owes m depth levels [] := by
  have hnone : Owes m depth levels (List.replicate 0 (.dedent, "<dedent>")) :=
    .closed hm (.inl rfl) hlevels
  exact hnone

/-- Behind the margin of a line no block is owed. -/
theorem Owes.eq_nil {m : Margin} {depth : Nat} {levels : List Nat} {owed : List (Kind × String)}
    (h : Owes m depth levels owed) (hm : m = .lineStart ∨ m = .inLine) :
    owed = [] ∧ levels = rungs depth := by
  cases h with
  | opened _ => simp at hm
  | closed _ hcount hlevels =>
    have hzero := hcount.resolve_right (by rcases hm with rfl | rfl <;> simp)
    subst hzero
    exact ⟨rfl, hlevels⟩

/-- A level that is closed in the stream is one more to be closed in the scan. -/
theorem Owes.dedent {m m' : Margin} {depth : Nat} {levels : List Nat} {owed : List (Kind × String)}
    (h : Owes m (depth + 1) levels owed) (hm : m ≠ .opened) (hm' : m' = .closed ∨ m' = .ending) :
    Owes m' depth levels (owed ++ [(.dedent, "<dedent>")]) := by
  cases h with
  | opened _ => exact absurd rfl hm
  | @closed _ _ count _ _ _ hlevels =>
    have hopened : m' ≠ .opened := by rcases hm' with rfl | rfl <;> simp
    rw [← List.replicate_succ']
    refine .closed hopened (.inr hm') ?_
    rw [hlevels, Nat.add_right_comm, Nat.add_assoc]

/-- Levels that a line does not reach are closed, one token for each. -/
theorem indentation_rungs {s : Layout} {depth count : Nat}
    (hlevels : s.levels = rungs (depth + count)) (hwidth : s.width = depth) :
    s.indentation = (List.replicate count s.dedentAt).map .token ∧
      reindent s.width s.levels = rungs depth := by
  have hdeeper : ¬innermost s.levels < s.width := by
    rw [hlevels, hwidth, innermost_rungs]
    omega
  have hclose : closeTo s.width s.levels = rungs depth := by
    rw [hlevels, hwidth, closeTo_rungs]
  have hfits : innermost (closeTo s.width s.levels) = s.width := by
    rw [hclose, hwidth, innermost_rungs]
  have hcount : s.levels.length - (closeTo s.width s.levels).length = count := by
    rw [hclose, hlevels, length_rungs, length_rungs]
    omega
  constructor
  · rw [indentation_of_eq hdeeper hfits, hcount, List.map_replicate]
  · rw [reindent, if_neg hdeeper, hclose]

/-- At the first token of a line the levels are those of the stream again. -/
theorem Owes.indentation {m : Margin} {depth : Nat} {s : Layout} {owed : List (Kind × String)}
    (h : Owes m depth s.levels owed) (hwidth : s.width = depth) :
    ∃ us : List Token, s.indentation = us.map .token ∧ us.map Token.spelling = owed ∧
      reindent s.width s.levels = rungs depth := by
  cases h with
  | closed _ _ hlevels =>
    obtain ⟨hindentation, hreindent⟩ := indentation_rungs hlevels hwidth
    exact ⟨_, hindentation, List.map_replicate, hreindent⟩
  | @opened depth _ hlevels =>
    have hdeeper : innermost s.levels < s.width := by
      rw [hlevels, hwidth, innermost_rungs]
      omega
    refine ⟨[s.indentAt], indentation_of_lt hdeeper, rfl, ?_⟩
    rw [reindent, if_pos hdeeper, hlevels, hwidth, rungs]

/-- A token with text of its own settles what is owed in front of it. -/
theorem Owes.text {m : Margin} {depth : Nat} {s : Layout} {owed : List (Kind × String)}
    (h : Owes m depth s.levels owed) (hline : s.lineStart = (m != .inLine))
    (hwidth : s.lineStart → s.width = depth) {kind : Kind} (hkind : kind ≠ .newline)
    (text : List Char) :
    ∃ us : List Token, (if s.lineStart then s.indentation else []) = us.map .token ∧
      us.map Token.spelling = owed ∧ (s.next ⟨.token kind, text⟩).levels = rungs depth := by
  rw [next_token hkind]
  by_cases hm : m = .inLine
  · subst hm
    obtain ⟨rfl, hlevels⟩ := h.eq_nil (.inr rfl)
    have hfalse : s.lineStart = false := hline
    exact ⟨[], by simp [hfalse], rfl, by simpa [hfalse] using hlevels⟩
  · have htrue : s.lineStart = true := hline.trans (bne_iff_ne.mpr hm)
    obtain ⟨us, hus, hspelling, hreindent⟩ := h.indentation (hwidth htrue)
    exact ⟨us, by simp [htrue, hus], hspelling, by simpa [htrue] using hreindent⟩

/-- A token with text of its own, with the blanks in front of it: what is owed, and the token. -/
theorem Owes.output_line {m : Margin} {depth : Nat} {s : Layout} {owed : List (Kind × String)}
    (h : Owes m depth s.levels owed) (hline : s.lineStart = (m != .inLine))
    (hwidth : s.lineStart → s.width = 0) {t : Token} (ht : t.Spelled)
    (hkind : t.kind.isStructural = false) {rest : List Char} (hrest : Piece.Separated rest) :
    ∃ us : List Token, ∃ s' : Layout,
      s.output (pieces ((if (m != .inLine) = true then List.replicate depth ' ' else [' ']) ++
        (t.lexeme.toList ++ rest))) = us.map .token ++ s'.output (pieces rest) ∧
      us.map Token.spelling = owed ++ [t.spelling] ∧ s'.levels = rungs depth ∧
      s'.nesting = nestingAfter s.nesting t.kind ∧ s'.lineStart = false := by
  have hne : t.kind ≠ .newline := Kind.ne_of_isStructural hkind rfl
  -- The blanks are the indentation of a line, or a single space inside it.
  let count := if s.lineStart then depth else 1
  have hblanks : (if (m != .inLine) = true then List.replicate depth ' ' else [' ']) =
      List.replicate count ' ' := by
    rw [← hline]
    simp only [count]
    split <;> rfl
  let spaced := s.next ⟨.blank, List.replicate count ' '⟩
  have hspaced : spaced.lineStart → spaced.width = depth := by
    intro hstart
    have hstart' : s.lineStart = true := hstart
    change s.width + blankWidth (List.replicate count ' ') = depth
    rw [hwidth hstart', blankWidth_spaces]
    simp [count, hstart']
  obtain ⟨us, hus, howed, hlevels⟩ := Owes.text (s := spaced) h hline hspaced hne t.lexeme.toList
  obtain ⟨u, hu, houtput⟩ := output_text spaced ht hkind hrest
  have hspaces := output_spaces s count ((ht.alone hkind).runEnds_gap rest)
  have hnext : spaced.next ⟨.token t.kind, t.lexeme.toList⟩ = _ := next_token hne
  refine ⟨us ++ [u], spaced.next ⟨.token t.kind, t.lexeme.toList⟩, ?_, ?_, hlevels, ?_, ?_⟩
  · rw [hblanks, hspaces, houtput, hus]
    simp
  · rw [List.map_append, howed, List.map_singleton, hu]
  · rw [hnext]
    rfl
  · rw [hnext]

/-- Where the stream ends, all that is open in the scan is still to be closed. -/
theorem Owes.finish {m : Margin} {s : Layout} {owed : List (Kind × String)}
    (h : Owes m 0 s.levels owed) :
    ∃ us : List Token, s.output (pieces []) = us.map .token ∧
      us.map Token.spelling = owed ++ [(.endOfInput, "")] := by
  have howed : owed = List.replicate s.levels.length (.dedent, "<dedent>") := by
    cases h with
    | closed _ _ hlevels => simp [hlevels]
  refine ⟨List.replicate s.levels.length s.dedentAt ++ [s.endAt], ?_, ?_⟩
  · rw [pieces_nil, output_nil, Layout.finish, List.map_append, List.map_replicate]
    rfl
  · rw [howed, List.map_append, List.map_replicate]
    rfl

/-- Scanning the text of a stream yields what is owed at its margin, and the stream. -/
theorem output_renderFrom {m : Margin} {depth n : Nat} {ts : List Token} (h : Laid m depth n ts)
    (hts : ∀ t ∈ ts, t.Spelled) {s : Layout} {owed : List (Kind × String)}
    (howes : Owes m depth s.levels owed) (hnesting : s.nesting = n)
    (hmargin : m ≠ .ending → s.lineStart = (m != .inLine) ∧ (s.lineStart → s.width = 0)) :
    ∃ us : List Token, s.output (pieces (renderFrom depth (m != .inLine) ts)) = us.map .token ∧
      us.map Token.spelling = owed ++ ts.map Token.spelling := by
  induction h generalizing s owed with
  | @finish m _ t _ hkind =>
    rw [renderFrom_endOfInput hkind, List.map_singleton,
      (hts t (by simp)).spelling_eq hkind rfl]
    exact howes.finish
  | @newline m depth t ts hm hkind _ ih =>
    obtain ⟨ht, hts⟩ := List.forall_mem_cons.mp hts
    obtain ⟨rfl, hlevels⟩ := howes.eq_nil hm
    have hstart : (s.next ⟨.token .newline, ['\n']⟩).lineStart = true := by simp [next, hnesting]
    obtain ⟨us, hus, hspelling⟩ := ih hts (s := s.next ⟨.token .newline, ['\n']⟩)
      (owes_nil (by simp) hlevels) hnesting fun _ => ⟨hstart, fun _ => rfl⟩
    have hpieces (cs : List Char) : pieces ('\n' :: cs) = ⟨.token .newline, ['\n']⟩ :: pieces cs :=
      pieces_cons '\n' cs
    refine ⟨⟨.newline, "\\n", s.line, s.spanOf ['\n']⟩ :: us, ?_, ?_⟩
    · rw [renderFrom_newline hkind, hpieces, output_cons, emit_newline hnesting]
      exact congrArg _ hus
    · rw [List.map_cons, List.map_cons, hspelling, ht.spelling_eq hkind rfl]
      rfl
  | @indent depth t ts hkind _ ih =>
    obtain ⟨ht, hts⟩ := List.forall_mem_cons.mp hts
    obtain ⟨rfl, hlevels⟩ := howes.eq_nil (.inl rfl)
    rw [renderFrom_indent hkind, List.map_cons, ht.spelling_eq hkind rfl]
    exact ih hts (.opened hlevels) hnesting fun _ => hmargin (by simp)
  | @dedent m depth t ts hm hkind _ ih =>
    obtain ⟨ht, hts⟩ := List.forall_mem_cons.mp hts
    have hopened : m ≠ .opened := by rcases hm with rfl | rfl <;> simp
    have hline : s.lineStart = true ∧ (s.lineStart → s.width = 0) := by
      rcases hm with rfl | rfl <;> exact hmargin (by simp)
    rw [renderFrom_dedent hkind, List.map_cons, ht.spelling_eq hkind rfl, List.append_cons]
    exact ih hts (howes.dedent hopened (.inl rfl)) hnesting fun _ => hline
  | @ending m depth n t ts hm hkind _ ih =>
    obtain ⟨ht, hts⟩ := List.forall_mem_cons.mp hts
    have hopened : m ≠ .opened := by rcases hm with rfl | rfl <;> simp
    rw [renderFrom_dedent hkind, List.map_cons, ht.spelling_eq hkind rfl, List.append_cons]
    exact ih hts (howes.dedent hopened (.inr rfl)) hnesting fun h => absurd rfl h
  | @text m depth n t ts hm hkind h ih =>
    obtain ⟨ht, hts⟩ := List.forall_mem_cons.mp hts
    obtain ⟨hline, hwidth⟩ := hmargin hm
    obtain ⟨vs, s', houtput, hvs, hlevels, hnesting', hstart⟩ :=
      howes.output_line hline hwidth ht hkind h.separated
    obtain ⟨us, hus, hspelling⟩ := ih hts (owes_nil (by simp) hlevels)
      (by rw [hnesting', hnesting]) fun _ => ⟨hstart, by simp [hstart]⟩
    have hus' : s'.output (pieces (renderFrom depth false ts)) = us.map .token := hus
    refine ⟨vs ++ us, ?_, ?_⟩
    · rw [renderFrom_text hkind, houtput, hus', List.map_append]
    · rw [List.map_append, hvs, hspelling, List.nil_append, List.append_assoc, List.map_cons]
      rfl

/-- The indentation of a line is spelled by its marks. -/
theorem spelled_indentation (s : Layout) : ∀ t ∈ tokensOf s.indentation, t.Spelled := by
  intro t ht
  rw [tokensOf_indentation] at ht
  split at ht
  · obtain rfl := List.mem_singleton.mp ht
    exact spelled_mark rfl
  · rw [List.eq_of_mem_replicate ht]
    exact spelled_mark rfl

/-- What a proper piece emits is spelled by the piece. -/
theorem spelled_emit {p : Piece} {rest : List Char} (hp : p.Proper rest) (s : Layout) :
    ∀ t ∈ tokensOf (s.emit p), t.Spelled := by
  intro t ht
  obtain ⟨role, text⟩ := p
  cases role with
  | token kind =>
    by_cases hkind : kind = .newline
    · subst hkind
      simp only [emit] at ht
      split at ht
      · obtain rfl := List.mem_singleton.mp ht
        exact spelled_mark rfl
      · cases ht
    · obtain ⟨hkind', halone⟩ := hp.of_token hkind
      rw [emit_token hkind, tokensOf_append, List.mem_append] at ht
      rcases ht with ht | ht
      · split at ht
        · exact s.spelled_indentation t ht
        · cases ht
      · obtain rfl := List.mem_singleton.mp ht
        exact spelled_text hkind' halone
  | _ => cases ht

/-- Every scanned token is spelled as its kind is. -/
theorem spelled_output {ps : List Piece} (hps : AllProper ps) (s : Layout) :
    ∀ t ∈ tokensOf (s.output ps), t.Spelled := by
  induction ps generalizing s with
  | nil =>
    intro t ht
    rw [output_nil, tokensOf_finish, List.mem_append, List.mem_singleton] at ht
    rcases ht with ht | rfl
    · rw [List.eq_of_mem_replicate ht]
      exact spelled_mark rfl
    · exact spelled_mark rfl
  | cons p ps ih =>
    obtain ⟨-, hp, hps⟩ := hps
    intro t ht
    rw [output_cons, tokensOf_append, List.mem_append] at ht
    exact ht.elim (spelled_emit hp s t) (ih hps (s.next p) t)

end Layout

/-- Scanning the canonical text of a scanned token stream reports no error and yields the kinds and
lexemes of the stream, changes of indentation included. -/
theorem scan_render (source : String) :
    (scan (render (scan source).tokens)).errors = [] ∧
      (scan (render (scan source).tokens)).tokens.map Token.spelling =
        (scan source).tokens.map Token.spelling := by
  have hspelled : ∀ t ∈ (scan source).tokens, t.Spelled := by
    rw [tokens_scan]
    exact Layout.spelled_output (allProper_pieces source.toList) {}
  obtain ⟨us, hus, hspelling⟩ := Layout.output_renderFrom (s := {}) (laid_scan source) hspelled
    (Layout.owes_nil (by simp) rfl) rfl fun _ => ⟨rfl, fun _ => rfl⟩
  have hlexemes : lexemes (render (scan source).tokens).toList = us.map .token := by
    rw [render, String.toList_ofList, lexemes_eq]
    exact hus
  have htokens : (scan (render (scan source).tokens)).tokens = us :=
    (congrArg tokensOf hlexemes).trans (tokensOf_map_token us)
  constructor
  · rw [scan, hlexemes]
    simp [Lexeme.error?]
  · rw [htokens, hspelling, List.nil_append]

end Offside
