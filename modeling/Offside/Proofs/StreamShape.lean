import Offside.Proofs.Streams

/-!
# The shape of scanned token streams

The token stream of any source, with or without lexical errors, ends with the only end of the input,
opens and closes its levels of indentation in balance, changes the indentation at the start of a
line only, and has no line structure inside brackets. Each of these is read off the place that the
tokens in front lead to, and every part of a stream is reached through the tokens in front of it.
The widths of the open levels increase throughout the scan.
-/

namespace Offside

/-- The number of tokens of a kind. -/
def countKind (kind : Kind) (ts : List Token) : Nat := ts.countP (·.kind == kind)

/-- An empty stream holds no token of a kind. -/
@[simp] theorem countKind_nil (kind : Kind) : countKind kind [] = 0 := rfl

/-- A token counts for its own kind. -/
theorem countKind_cons (kind : Kind) (t : Token) (ts : List Token) :
    countKind kind (t :: ts) = countKind kind ts + if t.kind = kind then 1 else 0 := by
  simp [countKind, List.countP_cons]

/-- Whether there is a last token and its kind satisfies `p`. -/
def trails (p : Kind → Bool) (ts : List Token) : Bool := ts.getLast?.any (p ·.kind)

/-- A stream trails with its last token. -/
@[simp] theorem trails_concat (p : Kind → Bool) (ts : List Token) (t : Token) :
    trails p (ts ++ [t]) = p t.kind := by
  simp [trails]

/-- Tokens that close levels, with no such token next to them. -/
structure IsDedentRun (before run after : List Token) : Prop where
  nonempty : run ≠ []
  kind : ∀ t ∈ run, t.kind = .dedent
  first : trails (· == .dedent) before = false
  last : leads (· == .dedent) after = false

/-- The shape of a scanned token stream. -/
structure WellShaped (ts : List Token) : Prop where
  /-- The end of the input is the last token, and no other token is one. -/
  ends : ∃ body finish, ts = body ++ [finish] ∧ finish.kind = .endOfInput ∧
    ∀ t ∈ body, t.kind ≠ .endOfInput
  /-- No more levels are closed than were opened before. -/
  covered : ∀ before after, ts = before ++ after →
    countKind .dedent before ≤ countKind .indent before
  /-- All levels are closed in the end. -/
  balanced : countKind .dedent ts = countKind .indent ts
  /-- A level is opened at the start of a line, in front of a token with text of its own. -/
  indents : ∀ before t after, ts = before ++ t :: after → t.kind = .indent →
    leads (!·.isStructural) after ∧ (before = [] ∨ trails (· == .newline) before)
  /-- Levels are closed at the end, or at the start of a line in front of a token with text of its
  own. -/
  dedents : ∀ before run after, ts = before ++ (run ++ after) → IsDedentRun before run after →
    leads (· == .endOfInput) after ∨
      leads (!·.isStructural) after ∧ trails (· == .newline) before
  /-- Inside brackets no line ends and no level is opened or closed, but at the end. -/
  brackets : ∀ before t after, ts = before ++ t :: after → 0 < nestingOver 0 before →
    t.kind ≠ .newline ∧ t.kind ≠ .indent ∧
      (t.kind = .dedent → ∀ u ∈ after, u.kind = .dedent ∨ u.kind = .endOfInput)

/-! ## Where the tokens in front lead to -/

namespace Margin

/-- The margin behind a token. -/
def behind (m : Margin) : Kind → Margin
  | .newline => .lineStart
  | .indent => .opened
  | .dedent => if m = .lineStart ∨ m = .closed then .closed else .ending
  | _ => .inLine

/-- The margin behind some tokens. -/
def after (m : Margin) (ts : List Token) : Margin := ts.foldl (fun m t => m.behind t.kind) m

/-- Behind a token that is not structural the stream is inside a line. -/
theorem behind_eq_inLine {kind : Kind} (h : kind.isStructural = false) (m : Margin) :
    m.behind kind = .inLine := by
  cases kind with
  | newline => cases h
  | indent => cases h
  | dedent => cases h
  | _ => rfl

/-- Only a newline leads to the start of a line. -/
theorem kind_of_behind_eq_lineStart {m : Margin} {kind : Kind} (h : m.behind kind = .lineStart) :
    kind = .newline := by
  cases kind with
  | newline => rfl
  | dedent =>
    simp only [behind] at h
    split at h <;> cases h
  | _ => cases h

/-- Only a dedent leads behind closed levels. -/
theorem kind_of_behind_eq_closed {m : Margin} {kind : Kind} (h : m.behind kind = .closed) :
    kind = .dedent := by
  cases kind with
  | dedent => rfl
  | _ => cases h

/-- The last token decides what the stream is behind. -/
theorem after_concat (m : Margin) (ts : List Token) (t : Token) :
    m.after (ts ++ [t]) = (m.after ts).behind t.kind := by
  simp [after]

/-- A stream stands at the start of a line only where it starts or behind the end of a line. -/
theorem trails_of_after_eq_lineStart {ts : List Token} (h : after .lineStart ts = .lineStart) :
    ts = [] ∨ trails (· == .newline) ts := by
  rcases List.eq_nil_or_concat ts with rfl | ⟨ts, t, rfl⟩
  · exact .inl rfl
  · rw [List.concat_eq_append] at h ⊢
    rw [after_concat] at h
    right
    rw [trails_concat, kind_of_behind_eq_lineStart h]
    rfl

/-- Behind closed levels the last token is a dedent. -/
theorem trails_of_after_eq_closed {ts : List Token} (h : after .lineStart ts = .closed) :
    trails (· == .dedent) ts := by
  rcases List.eq_nil_or_concat ts with rfl | ⟨ts, t, rfl⟩
  · cases h
  · rw [List.concat_eq_append] at h ⊢
    rw [after_concat] at h
    rw [trails_concat, kind_of_behind_eq_closed h]
    rfl

/-- Behind further tokens that close levels at the start of a line nothing has changed. -/
theorem after_dedents {ts : List Token} (h : ∀ t ∈ ts, t.kind = .dedent) :
    after .closed ts = .closed := by
  induction ts with
  | nil => rfl
  | cons t ts ih =>
    rw [List.forall_mem_cons] at h
    rw [after, List.foldl_cons, h.1]
    exact ih h.2

end Margin

namespace Laid

variable {m : Margin} {depth n : Nat} {t : Token} {ts before after : List Token}

/-- No newline stands inside brackets. -/
theorem of_newline (h : Laid m depth n (t :: ts)) (ht : t.kind = .newline) : n = 0 := by
  cases h with
  | newline _ _ _ => rfl
  | indent _ _ => rfl
  | dedent _ _ _ => rfl
  | finish _ hkind => simp [ht] at hkind
  | ending _ hkind _ => simp [ht] at hkind
  | text _ hkind _ => simp [ht, Kind.isStructural] at hkind

/-- An indent stands at the start of a line, outside brackets, and opens a level. -/
theorem of_indent (h : Laid m depth n (t :: ts)) (ht : t.kind = .indent) :
    m = .lineStart ∧ n = 0 ∧ Laid .opened (depth + 1) 0 ts := by
  cases h with
  | indent _ h => exact ⟨rfl, rfl, h⟩
  | finish _ hkind => simp [ht] at hkind
  | newline _ hkind _ => simp [ht] at hkind
  | dedent _ hkind _ => simp [ht] at hkind
  | ending _ hkind _ => simp [ht] at hkind
  | text _ hkind _ => simp [ht, Kind.isStructural] at hkind

/-- A level is closed at the start of a line or at the end. -/
theorem of_dedent (h : Laid m depth n (t :: ts)) (ht : t.kind = .dedent) :
    0 < depth ∧
      ((m = .lineStart ∨ m = .closed) ∧ n = 0 ∧ Laid .closed (depth - 1) 0 ts ∨
        Laid .ending (depth - 1) n ts) := by
  cases h with
  | @dedent _ depth _ _ hm _ h => exact ⟨Nat.succ_pos depth, .inl ⟨hm, rfl, h⟩⟩
  | @ending _ depth _ _ _ _ _ h => exact ⟨Nat.succ_pos depth, .inr h⟩
  | finish _ hkind => simp [ht] at hkind
  | newline _ hkind _ => simp [ht] at hkind
  | indent hkind _ => simp [ht] at hkind
  | text _ hkind _ => simp [ht, Kind.isStructural] at hkind

/-- At the end of input no level is open. -/
theorem of_endOfInput (h : Laid m depth n (t :: ts)) (ht : t.kind = .endOfInput) : depth = 0 := by
  cases h with
  | finish _ _ => rfl
  | newline _ hkind _ => simp [ht] at hkind
  | indent hkind _ => simp [ht] at hkind
  | dedent _ hkind _ => simp [ht] at hkind
  | ending _ hkind _ => simp [ht] at hkind
  | text _ hkind _ => simp [ht, Kind.isStructural] at hkind

/-- One token leads on to the rest of the stream. -/
theorem step (h : Laid m depth n (t :: ts)) (hts : ts ≠ []) :
    ∃ depth', Laid (m.behind t.kind) depth' (Layout.nestingAfter n t.kind) ts ∧
      depth' + countKind .dedent [t] = depth + countKind .indent [t] := by
  cases h with
  | finish _ _ => exact absurd rfl hts
  | newline _ hkind h =>
    refine ⟨depth, ?_, by simp [countKind_cons, hkind]⟩
    rw [hkind]
    exact h
  | indent hkind h =>
    refine ⟨depth + 1, ?_, by simp [countKind_cons, hkind]⟩
    rw [hkind]
    exact h
  | @dedent _ depth _ _ hm hkind h =>
    refine ⟨depth, ?_, by simp [countKind_cons, hkind]⟩
    rw [hkind, Margin.behind, if_pos hm]
    exact h
  | @ending _ depth _ _ _ hm hkind h =>
    refine ⟨depth, ?_, by simp [countKind_cons, hkind]⟩
    have hline : ¬(m = .lineStart ∨ m = .closed) := by rcases hm with rfl | rfl <;> simp
    rw [hkind, Margin.behind, if_neg hline]
    exact h
  | text _ hkind h =>
    have hindent : t.kind ≠ .indent := Kind.ne_of_isStructural hkind rfl
    have hdedent : t.kind ≠ .dedent := Kind.ne_of_isStructural hkind rfl
    refine ⟨depth, ?_, by simp [countKind_cons, hindent, hdedent]⟩
    rw [Margin.behind_eq_inLine hkind]
    exact h

/-- The tokens in front lead on to the rest of the stream. -/
theorem split (h : Laid m depth n (before ++ after)) (hafter : after ≠ []) :
    ∃ depth', Laid (m.after before) depth' (nestingOver n before) after ∧
      depth' + countKind .dedent before = depth + countKind .indent before := by
  induction before generalizing m depth n with
  | nil => exact ⟨depth, h, rfl⟩
  | cons t before ih =>
    obtain ⟨middle, hrest, hmiddle⟩ := h.step (by simp [hafter])
    obtain ⟨depth', hafter', hdepth⟩ := ih hrest
    refine ⟨depth', hafter', ?_⟩
    simp only [countKind_cons, countKind_nil] at hmiddle ⊢
    omega

/-- A laid stream ends in its only end of input. -/
theorem ends (h : Laid m depth n ts) :
    ∃ body finish, ts = body ++ [finish] ∧ finish.kind = .endOfInput ∧
      ∀ t ∈ body, t.kind ≠ .endOfInput := by
  have hcons {t : Token} {ts : List Token} (ht : t.kind ≠ .endOfInput)
      (h : ∃ body finish, ts = body ++ [finish] ∧ finish.kind = .endOfInput ∧
        ∀ t ∈ body, t.kind ≠ .endOfInput) :
      ∃ body finish, t :: ts = body ++ [finish] ∧ finish.kind = .endOfInput ∧
        ∀ t ∈ body, t.kind ≠ .endOfInput := by
    obtain ⟨body, finish, rfl, hfinish, hbody⟩ := h
    exact ⟨t :: body, finish, rfl, hfinish, List.forall_mem_cons.mpr ⟨ht, hbody⟩⟩
  induction h with
  | @finish _ _ t _ hkind => exact ⟨[], t, rfl, hkind, by simp⟩
  | newline _ hkind _ ih => exact hcons (by simp [hkind]) ih
  | indent hkind _ ih => exact hcons (by simp [hkind]) ih
  | dedent _ hkind _ ih => exact hcons (by simp [hkind]) ih
  | ending _ hkind _ ih => exact hcons (by simp [hkind]) ih
  | text _ hkind _ ih => exact hcons (Kind.ne_of_isStructural hkind rfl) ih

/-- A laid stream trails with the end of input. -/
theorem trails_endOfInput (h : Laid m depth n ts) : trails (· == .endOfInput) ts := by
  obtain ⟨body, finish, rfl, hfinish, -⟩ := h.ends
  simp [hfinish]

/-- What is open in front of a stream is closed in it. -/
theorem countKind_dedent (h : Laid m depth n ts) :
    countKind .dedent ts = depth + countKind .indent ts := by
  obtain ⟨body, finish, rfl, hfinish, -⟩ := h.ends
  obtain ⟨depth', hlast, hdepth⟩ := h.split (List.cons_ne_nil finish [])
  have hzero := hlast.of_endOfInput hfinish
  have happend (kind : Kind) : countKind kind (body ++ [finish]) =
      countKind kind body + if finish.kind = kind then 1 else 0 := by
    simp [countKind, List.countP_append]
  simp only [happend, hfinish]
  simp only [reduceCtorEq, if_false]
  omega

/-! ## What may follow -/

/-- Behind the token that opens a level there is one with text of its own. -/
theorem leads_of_opened (h : Laid .opened depth n ts) : leads (!·.isStructural) ts := by
  cases h with
  | finish hm _ => exact absurd rfl hm
  | newline hm _ _ => simp at hm
  | dedent hm _ _ => simp at hm
  | ending hm _ _ => simp at hm
  | text _ hkind _ => simp [hkind]

/-- Behind the tokens that close levels at the start of a line there is one with text of its own, or
the end of the input. -/
theorem leads_of_closed (h : Laid .closed depth n ts) (hts : leads (· == .dedent) ts = false) :
    leads (· == .endOfInput) ts ∨ leads (!·.isStructural) ts := by
  cases h with
  | finish _ hkind => exact .inl (by simp [hkind])
  | newline hm _ _ => simp at hm
  | dedent _ hkind _ => simp [hkind] at hts
  | ending hm _ _ => simp at hm
  | text _ hkind _ => exact .inr (by simp [hkind])

/-- At the end there is nothing but tokens that close levels, and the end of the input. -/
theorem kind_of_ending (h : Laid .ending depth n ts) :
    ∀ t ∈ ts, t.kind = .dedent ∨ t.kind = .endOfInput := by
  generalize hm : Margin.ending = m at h
  induction h with
  | finish _ hkind => simp [hkind]
  | newline h _ _ => subst hm; simp at h
  | indent _ _ => cases hm
  | dedent h _ _ => subst hm; simp at h
  | ending _ hkind _ ih => exact List.forall_mem_cons.mpr ⟨.inl hkind, ih rfl⟩
  | text h _ _ => exact absurd hm.symm h

end Laid

/-! ## Shape -/

section

variable {ts before after run : List Token} {t : Token}

/-- An indent stands between a newline and the first token of its line. -/
theorem Laid.shape_indents (h : Laid .lineStart 0 0 (before ++ t :: after))
    (ht : t.kind = .indent) :
    leads (!·.isStructural) after ∧ (before = [] ∨ trails (· == .newline) before) := by
  obtain ⟨depth, hrest, -⟩ := h.split (List.cons_ne_nil t after)
  obtain ⟨hm, -, hopened⟩ := hrest.of_indent ht
  exact ⟨hopened.leads_of_opened, Margin.trails_of_after_eq_lineStart hm⟩

/-- A run of dedents stands behind a newline, or else at the end. -/
theorem Laid.shape_dedents (h : Laid .lineStart 0 0 (before ++ (run ++ after)))
    (hrun : IsDedentRun before run after) :
    leads (· == .endOfInput) after ∨
      leads (!·.isStructural) after ∧ trails (· == .newline) before := by
  have hafter : after ≠ [] := by
    rintro rfl
    have hlast := h.trails_endOfInput
    obtain ⟨init, last, rfl⟩ := List.eq_nil_or_concat run |>.resolve_left hrun.nonempty
    have hkind := hrun.kind last (by simp)
    simp [trails, hkind] at hlast
  obtain ⟨first, more, rfl⟩ := List.exists_cons_of_ne_nil hrun.nonempty
  obtain ⟨hfirst, hmore⟩ := List.forall_mem_cons.mp hrun.kind
  obtain ⟨depth, hrest, hdepth⟩ := h.split (by simp)
  obtain ⟨hpos, ⟨hm, -, hclosed⟩ | hending⟩ := hrest.of_dedent hfirst
  · have hbefore : trails (· == .newline) before := by
      rcases hm with hm | hm
      · rcases Margin.trails_of_after_eq_lineStart hm with rfl | hnewline
        -- No level is open at the start of the stream.
        · simp only [countKind_nil] at hdepth
          omega
        · exact hnewline
      · have htrails := Margin.trails_of_after_eq_closed hm
        rw [hrun.first] at htrails
        cases htrails
    obtain ⟨_, hbehind, -⟩ := hclosed.split hafter
    rw [Margin.after_dedents hmore] at hbehind
    rcases hbehind.leads_of_closed hrun.last with hend | htext
    · exact .inl hend
    · exact .inr ⟨htext, hbefore⟩
  · obtain ⟨u, after, rfl⟩ := List.exists_cons_of_ne_nil hafter
    rcases hending.kind_of_ending u (by simp) with hkind | hkind
    · have hlast := hrun.last
      simp [hkind] at hlast
    · exact .inl (by simp [hkind])

/-- Inside brackets there are no line tokens but the dedents at the end. -/
theorem Laid.shape_brackets (h : Laid .lineStart 0 0 (before ++ t :: after))
    (hnesting : 0 < nestingOver 0 before) :
    t.kind ≠ .newline ∧ t.kind ≠ .indent ∧
      (t.kind = .dedent → ∀ u ∈ after, u.kind = .dedent ∨ u.kind = .endOfInput) := by
  obtain ⟨depth, hrest, -⟩ := h.split (List.cons_ne_nil t after)
  refine ⟨fun ht => ?_, fun ht => ?_, fun ht => ?_⟩
  · have hzero := hrest.of_newline ht
    omega
  · have hzero := (hrest.of_indent ht).2.1
    omega
  · obtain ⟨-, ⟨-, hzero, -⟩ | hending⟩ := hrest.of_dedent ht
    · omega
    · exact hending.kind_of_ending

/-- A laid stream is well shaped. -/
theorem Laid.wellShaped (h : Laid .lineStart 0 0 ts) : WellShaped ts where
  ends := h.ends
  covered := by
    rintro before after rfl
    by_cases hafter : after = []
    · subst hafter
      rw [List.append_nil] at h
      have hcount := h.countKind_dedent
      omega
    · obtain ⟨depth, -, hdepth⟩ := h.split hafter
      omega
  balanced := by
    have hcount := h.countKind_dedent
    omega
  indents := by
    rintro before t after rfl
    exact h.shape_indents
  dedents := by
    rintro before run after rfl
    exact h.shape_dedents
  brackets := by
    rintro before t after rfl
    exact h.shape_brackets

end

/-! ## Open levels -/

namespace Layout

/-- The widths of the open levels, the outermost one of width zero first. -/
def stack (s : Layout) : List Nat := 0 :: s.levels.reverse

/-- The open levels as a stack. -/
structure IsStacked (s : Layout) : Prop where
  bottom : s.stack.head? = some 0
  increasing : s.stack.Pairwise (· < ·)
  /-- Where levels are opened and closed, the outermost one stays: with it on the stack nothing else
  is opened or closed than without it. -/
  kept : ∀ width, reindent width s.stack.reverse =
    (s.withLevels (reindent width s.levels)).stack.reverse

/-- The widths of open levels, innermost first and with that of the outermost one behind them,
decrease. -/
def Descending (levels : List Nat) : Prop := (levels ++ [0]).Pairwise (· > ·)

/-- The outermost level is never closed, so it need not be kept. -/
theorem reindent_outermost (width : Nat) (levels : List Nat) :
    reindent width (levels ++ [0]) = reindent width levels ++ [0] := by
  have hclose : closeTo width (levels ++ [0]) = closeTo width levels ++ [0] := by
    induction levels with
    | nil => simp [closeTo]
    | cons first levels ih =>
      simp only [closeTo, List.cons_append, List.dropWhile_cons] at ih ⊢
      split
      · exact ih
      · rfl
  have hinnermost : innermost (levels ++ [0]) = innermost levels := by cases levels <;> rfl
  unfold reindent
  rw [hinnermost, hclose]
  split <;> rfl

/-- Reindenting keeps the levels ordered. -/
theorem pairwise_reindent {levels : List Nat} (h : levels.Pairwise (· > ·)) (width : Nat) :
    (reindent width levels).Pairwise (· > ·) := by
  unfold reindent
  split
  next hdeeper =>
    refine List.pairwise_cons.mpr ⟨fun other hother => ?_, h⟩
    cases levels with
    | nil => cases hother
    | cons first levels =>
      have hfirst : first < width := hdeeper
      rcases List.mem_cons.mp hother with rfl | hother
      · exact hfirst
      · have hlt := (List.pairwise_cons.mp h).1 other hother
        omega
  next => exact h.sublist (List.dropWhile_sublist _)

/-- A piece keeps the levels descending. -/
theorem descending_next {s : Layout} (h : Descending s.levels) (p : Piece) :
    Descending (s.next p).levels := by
  obtain ⟨role, text⟩ := p
  cases role with
  | token kind =>
    by_cases hkind : kind = .newline
    · subst hkind
      exact h
    · rw [next_token hkind]
      dsimp only
      split
      · have hreindent := pairwise_reindent h s.width
        rwa [reindent_outermost] at hreindent
      · exact h
  | _ => exact h

/-- Pieces keep the levels descending. -/
theorem descending_after {s : Layout} (h : Descending s.levels) (ps : List Piece) :
    Descending (s.after ps).levels := by
  induction ps generalizing s with
  | nil => exact h
  | cons p ps ih => exact ih (descending_next h p)

/-- The stack lists the levels from the margin inward. -/
theorem stack_eq_reverse (s : Layout) : s.stack = (s.levels ++ [0]).reverse := by simp [stack]

/-- While levels are being closed, those that are still open are as before. -/
theorem isStacked_withLevels {s : Layout} (h : Descending s.levels) {levels : List Nat}
    (hlevels : levels <:+ s.levels) : (s.withLevels levels).IsStacked where
  bottom := rfl
  increasing := by
    have hsublist : (levels ++ [0]).Sublist (s.levels ++ [0]) :=
      hlevels.sublist.append (List.Sublist.refl [0])
    rw [stack_eq_reverse, List.pairwise_reverse]
    exact h.sublist hsublist
  kept := by
    intro width
    rw [stack_eq_reverse, stack_eq_reverse, List.reverse_reverse, List.reverse_reverse]
    exact reindent_outermost width levels

end Layout

/-- The token stream of a source has the shape of lines and levels, whatever the source is. After
any number of its pieces, and while levels are being closed there, the widths of the open levels
increase from zero on. -/
theorem scan_wellShaped (source : String) :
    WellShaped (scan source).tokens ∧
      ∀ ps levels, ps <+: pieces source.toList → levels <:+ (Layout.after {} ps).levels →
        (Layout.withLevels levels (Layout.after {} ps)).IsStacked := by
  refine ⟨(laid_scan source).wellShaped, fun ps levels _ hlevels => ?_⟩
  have hstart : Layout.Descending (Layout.levels {}) := by simp [Layout.Descending]
  exact Layout.isStacked_withLevels (Layout.descending_after hstart ps) hlevels

end Offside
