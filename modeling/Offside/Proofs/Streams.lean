import Offside.Proofs.Indentation
import Offside.Proofs.Balance
import Offside.Proofs.Pieces

/-!
# The layout of scanned token streams

A scanned stream is read as a sequence of lines: changes of indentation stand at the start of a
line only, each of them in front of a token with text of its own, and what is still open at the end
is closed there. The grammar below says what may follow what, together with the number of open
levels and of open brackets. Every scan yields such a stream, with or without lexical errors.
-/

namespace Offside

/-- Where a token stream stands between two tokens. -/
inductive Margin where
  /-- At the start of the stream or behind the end of a line. -/
  | lineStart
  /-- Behind the token that opens a level. -/
  | opened
  /-- Behind a token that closes a level at the start of a line. -/
  | closed
  /-- Behind a token with text of its own. -/
  | inLine
  /-- Among the tokens that close what is open at the end. -/
  | ending
  deriving DecidableEq

/-- Token streams with the given margin and numbers of open levels and of open brackets in front. -/
inductive Laid : Margin → Nat → Nat → List Token → Prop
  | finish {m : Margin} {n : Nat} {t : Token} : m ≠ .opened → t.kind = .endOfInput → Laid m 0 n [t]
  | newline {m : Margin} {depth : Nat} {t : Token} {ts : List Token} :
    m = .lineStart ∨ m = .inLine → t.kind = .newline → Laid .lineStart depth 0 ts →
    Laid m depth 0 (t :: ts)
  | indent {depth : Nat} {t : Token} {ts : List Token} : t.kind = .indent →
    Laid .opened (depth + 1) 0 ts → Laid .lineStart depth 0 (t :: ts)
  | dedent {m : Margin} {depth : Nat} {t : Token} {ts : List Token} :
    m = .lineStart ∨ m = .closed → t.kind = .dedent → Laid .closed depth 0 ts →
    Laid m (depth + 1) 0 (t :: ts)
  | ending {m : Margin} {depth n : Nat} {t : Token} {ts : List Token} :
    m = .inLine ∨ m = .ending → t.kind = .dedent → Laid .ending depth n ts →
    Laid m (depth + 1) n (t :: ts)
  | text {m : Margin} {depth n : Nat} {t : Token} {ts : List Token} : m ≠ .ending →
    t.kind.isStructural = false → Laid .inLine depth (Layout.nestingAfter n t.kind) ts →
    Laid m depth n (t :: ts)

namespace Laid

variable {m : Margin} {depth n : Nat} {d t : Token} {ts : List Token}

/-- Levels that are closed at the start of a line. -/
theorem dedents (hd : d.kind = .dedent)
    (h : ∀ m, m = .lineStart ∨ m = .closed → Laid m depth 0 ts)
    (hm : m = .lineStart ∨ m = .closed) (count : Nat) :
    Laid m (depth + count) 0 (List.replicate count d ++ ts) := by
  induction count generalizing m with
  | zero => exact h m hm
  | succ count ih => exact .dedent hm hd (ih (.inr rfl))

/-- Levels that are closed at the end, behind a token with text of its own. -/
theorem endings (hd : d.kind = .dedent) (ht : t.kind = .endOfInput)
    (hm : m = .inLine ∨ m = .ending) (count : Nat) :
    Laid m count n (List.replicate count d ++ [t]) := by
  induction count generalizing m with
  | zero =>
    have hopened : m ≠ .opened := by rcases hm with rfl | rfl <;> simp
    exact .finish hopened ht
  | succ count ih => exact .ending hm hd (ih (.inr rfl))

end Laid

/-- The tokens among scanned items. -/
def tokensOf (xs : List Lexeme) : List Token := xs.filterMap Lexeme.token?

/-- The tokens of two runs of lexemes stand one behind the other. -/
@[simp] theorem tokensOf_append (xs ys : List Lexeme) :
    tokensOf (xs ++ ys) = tokensOf xs ++ tokensOf ys :=
  List.filterMap_append

/-- The tokens of token lexemes are these tokens. -/
@[simp] theorem tokensOf_map_token (ts : List Token) : tokensOf (ts.map .token) = ts := by
  rw [tokensOf, List.filterMap_map]
  exact List.filterMap_some

/-- A scan has the tokens that the fresh layout puts out. -/
theorem tokens_scan (source : String) :
    (scan source).tokens = tokensOf (Layout.output {} (pieces source.toList)) :=
  congrArg tokensOf (lexemes_eq source.toList)

namespace Layout

/-- The margin at which a scan stands. -/
def margin (s : Layout) : Margin := if s.lineStart then .lineStart else .inLine

/-- The margin of a line is one indent or the dedents to its level. -/
theorem tokensOf_indentation (s : Layout) :
    tokensOf s.indentation =
      if innermost s.levels < s.width then [s.indentAt]
      else List.replicate (s.levels.length - (closeTo s.width s.levels).length) s.dedentAt := by
  have hdedents (count : Nat) :
      tokensOf (List.replicate count (.token s.dedentAt)) = List.replicate count s.dedentAt := by
    rw [← List.map_replicate, tokensOf_map_token]
  by_cases hdeeper : innermost s.levels < s.width
  · rw [indentation_of_lt hdeeper, if_pos hdeeper]
    rfl
  · rw [if_neg hdeeper]
    by_cases hfits : innermost (closeTo s.width s.levels) = s.width
    · rw [indentation_of_eq hdeeper hfits, hdedents]
    · rw [indentation_of_ne hdeeper hfits, tokensOf_append, hdedents]
      exact List.append_nil _

/-- A stream ends in a dedent for each open level and the end of input. -/
theorem tokensOf_finish (s : Layout) :
    tokensOf s.finish = List.replicate s.levels.length s.dedentAt ++ [s.endAt] := by
  rw [finish, tokensOf_append, ← List.map_replicate, tokensOf_map_token]
  rfl

/-- The changes of indentation in front of the first token of a line. -/
theorem laid_indentation {s : Layout} {t : Token} {ts : List Token}
    (ht : t.kind.isStructural = false)
    (h : Laid .inLine (reindent s.width s.levels).length (nestingAfter 0 t.kind) ts) :
    Laid .lineStart s.levels.length 0 (tokensOf s.indentation ++ t :: ts) := by
  rw [tokensOf_indentation]
  unfold reindent at h
  by_cases hdeeper : innermost s.levels < s.width
  · rw [if_pos hdeeper] at h ⊢
    exact .indent rfl (.text (by simp) ht h)
  · rw [if_neg hdeeper] at h ⊢
    have hle : (closeTo s.width s.levels).length ≤ s.levels.length :=
      (List.dropWhile_suffix _).length_le
    have hline (m : Margin) (hm : m = .lineStart ∨ m = .closed) :
        Laid m (closeTo s.width s.levels).length 0 (t :: ts) := by
      have hending : m ≠ .ending := by rcases hm with rfl | rfl <;> simp
      exact .text hending ht h
    have hdedents := Laid.dedents (d := s.dedentAt) rfl hline (.inl rfl)
      (s.levels.length - (closeTo s.width s.levels).length)
    rwa [Nat.add_sub_of_le hle] at hdedents

/-- The end of a stream is laid. -/
theorem laid_finish {s : Layout} (hstart : s.lineStart → s.nesting = 0) :
    Laid s.margin s.levels.length s.nesting (tokensOf s.finish) := by
  rw [tokensOf_finish]
  cases hline : s.lineStart with
  | true =>
    rw [margin, if_pos hline, hstart hline]
    have hend (m : Margin) (hm : m = .lineStart ∨ m = .closed) : Laid m 0 0 [s.endAt] := by
      have hopened : m ≠ .opened := by rcases hm with rfl | rfl <;> simp
      exact .finish hopened rfl
    simpa using Laid.dedents (d := s.dedentAt) rfl hend (.inl rfl) s.levels.length
  | false =>
    rw [margin, if_neg (by simp [hline])]
    exact .endings rfl rfl (.inl rfl) _

/-- A line starts outside brackets. -/
theorem nesting_of_lineStart_next {s : Layout} (hstart : s.lineStart → s.nesting = 0) (p : Piece) :
    (s.next p).lineStart → (s.next p).nesting = 0 := by
  obtain ⟨role, text⟩ := p
  cases role with
  | token kind =>
    by_cases hkind : kind = .newline
    · subst hkind
      intro hline
      have hline' : s.lineStart = true ∨ s.nesting = 0 := by simpa [next] using hline
      exact hline'.elim hstart id
    · simp [next_token hkind]
  | _ => exact hstart

section

variable {s : Layout} {text : List Char} {ts : List Token}

/-- A line break ends a line, or it leaves no trace inside brackets. -/
theorem laid_newline (hstart : s.lineStart → s.nesting = 0)
    (h : Laid (s.next ⟨.token .newline, text⟩).margin s.levels.length s.nesting ts) :
    Laid s.margin s.levels.length s.nesting (tokensOf (s.emit ⟨.token .newline, text⟩) ++ ts) := by
  by_cases hnesting : s.nesting = 0
  · have hline : (s.next ⟨.token .newline, text⟩).margin = .lineStart := by
      simp [margin, next, hnesting]
    have hmargin : s.margin = .lineStart ∨ s.margin = .inLine := by
      unfold margin
      split <;> simp
    rw [hline, hnesting] at h
    rw [emit_newline hnesting, hnesting]
    exact .newline hmargin rfl h
  · have hline : s.lineStart = false := by
      cases hline : s.lineStart with
      | false => rfl
      | true => exact absurd (hstart hline) hnesting
    have hmargin : (s.next ⟨.token .newline, text⟩).margin = s.margin := by
      simp [margin, next, hline, hnesting]
    rw [hmargin] at h
    rw [emit, if_neg hnesting]
    exact h

/-- A token with text of its own, with the changes of indentation in front of it. -/
theorem laid_text {kind : Kind} (hkind : kind.isStructural = false)
    (hstart : s.lineStart → s.nesting = 0)
    (h : Laid (s.next ⟨.token kind, text⟩).margin (s.next ⟨.token kind, text⟩).levels.length
      (s.next ⟨.token kind, text⟩).nesting ts) :
    Laid s.margin s.levels.length s.nesting (tokensOf (s.emit ⟨.token kind, text⟩) ++ ts) := by
  have hne : kind ≠ .newline := Kind.ne_of_isStructural hkind rfl
  rw [next_token hne] at h
  rw [emit_token hne, tokensOf_append, List.append_assoc]
  cases hline : s.lineStart with
  | true =>
    rw [margin, if_pos hline, hstart hline]
    simp only [hline, hstart hline, if_true] at h
    exact laid_indentation hkind h
  | false =>
    rw [margin, if_neg (by simp [hline])]
    simp only [hline, Bool.false_eq_true, if_false] at h
    exact .text (by simp) hkind h

/-- What a piece contributes leads from where the scan stands in front of it to where it stands
behind it. -/
theorem laid_emit {p : Piece} {rest : List Char} (hp : p.Proper rest)
    (hstart : s.lineStart → s.nesting = 0)
    (h : Laid (s.next p).margin (s.next p).levels.length (s.next p).nesting ts) :
    Laid s.margin s.levels.length s.nesting (tokensOf (s.emit p) ++ ts) := by
  obtain ⟨role, text⟩ := p
  cases role with
  | token kind =>
    by_cases hkind : kind = .newline
    · subst hkind
      exact laid_newline hstart h
    · exact laid_text (hp.of_token hkind).1 hstart h
  | _ => exact h

end

/-- What is left to scan is laid out as the scan stands. -/
theorem laid_output {ps : List Piece} (hps : AllProper ps) {s : Layout}
    (hstart : s.lineStart → s.nesting = 0) :
    Laid s.margin s.levels.length s.nesting (tokensOf (s.output ps)) := by
  induction ps generalizing s with
  | nil => exact laid_finish hstart
  | cons p ps ih =>
    obtain ⟨-, hp, hps⟩ := hps
    rw [output_cons, tokensOf_append]
    exact laid_emit hp hstart (ih hps (nesting_of_lineStart_next hstart p))

end Layout

/-- Every scanned stream is laid out in lines. -/
theorem laid_scan (source : String) : Laid .lineStart 0 0 (scan source).tokens := by
  rw [tokens_scan]
  exact Layout.laid_output (s := {}) (allProper_pieces source.toList) fun _ => rfl

end Offside
