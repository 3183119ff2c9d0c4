import Offside.Proofs.Origins
import Offside.Proofs.Spellings

/-!
# Tokens are as long as they can be

The text of a token is never cut short: behind a word stands no character that a word may hold,
behind a number literal no digit and no fraction that it could still take, and a symbol of one
character is not the first half of a longer one. Where a token ends depends on the text behind it
only, so this holds wherever in a source the token stands.
-/

namespace Offside

open Piece

/-- The text of a name or reserved word, and the text behind it. -/
structure IsWord (text behind : List Char) : Prop where
  start : ∃ c cs, text = c :: cs ∧ isWordStart c
  part : ∀ c ∈ text, isWordPart c
  ends : RunEnds isWordPart behind

/-- The text of a number literal, and the text behind it. -/
inductive IsNumeral : List Char → List Char → Prop
  /-- No fraction follows digits that stand alone. -/
  | whole {digits behind : List Char} : digits ≠ [] → (∀ d ∈ digits, d.isDigit) →
    RunEnds Char.isDigit behind → (∀ d rest, behind = '.' :: d :: rest → d.isDigit = false) →
    IsNumeral digits behind
  | decimals {digits decimals behind : List Char} : digits ≠ [] → (∀ d ∈ digits, d.isDigit) →
    decimals ≠ [] → (∀ d ∈ decimals, d.isDigit) → RunEnds Char.isDigit behind →
    IsNumeral (digits ++ '.' :: decimals) behind

/-- The text of a symbol, and the text behind it. -/
structure IsSymbol (s : Symbol) (text behind : List Char) : Prop where
  text : text = s.text.toList
  star : s = .star → behind.head? ≠ some '*'
  equal : s = .bang ∨ s = .equal ∨ s = .less ∨ s = .greater → behind.head? ≠ some '='

/-- What the text of a token and the text behind it are if the token is as long as it can be. -/
def Kind.Maximal (text behind : List Char) : Kind → Prop
  | .identifier => IsWord text behind ∧ ∀ k : Keyword, String.ofList text ≠ k.text
  | .keyword k => IsWord text behind ∧ String.ofList text = k.text
  | .number _ => IsNumeral text behind
  | .string contents => text = '"' :: contents.toList ++ ['"'] ∧ '"' ∉ contents.toList
  | .symbol s => IsSymbol s text behind
  | .newline | .indent | .dedent | .endOfInput => True

/-! ## Pieces -/

section

variable {c : Char} {cs : List Char}

/-- What may start a word may also continue one. -/
theorem isWordPart_of_isWordStart (h : isWordStart c) : isWordPart c := by
  simp only [isWordStart, isWordPart, Char.isAlphanum, Bool.or_eq_true] at h ⊢
  exact h.imp .inl id

/-- Every reserved word is found by its letters. -/
theorem Keyword.ofText?_text (k : Keyword) : Keyword.ofText? k.text = some k := by
  cases k <;> decide

/-- A word is maximal whether it names a keyword or not. -/
theorem maximal_wordKind {text behind : List Char} (h : IsWord text behind) :
    (wordKind text).Maximal text behind := by
  unfold wordKind
  cases hword : Keyword.ofText? (String.ofList text) with
  | some k => exact ⟨h, text_of_ofText? hword⟩
  | none =>
    refine ⟨h, fun k hk => ?_⟩
    rw [hk, Keyword.ofText?_text] at hword
    cases hword

/-- A string that closes is maximal. -/
theorem maximal_cutString {kind : Kind} (h : (cutString cs).1.role = .token kind) :
    kind.Maximal (cutString cs).1.text (cutString cs).2 := by
  have hinside : '"' ∉ cs.takeWhile (· ≠ '"') := by
    intro hmem
    simpa using of_mem_takeWhile hmem
  unfold cutString at h ⊢
  split at h
  next => cases h
  next =>
    cases h
    simpa [Kind.Maximal] using hinside

/-- Without a fraction no digit stands behind a point. -/
theorem fraction_eq_nil_iff :
    fraction cs = [] ↔ ∀ d rest, cs = '.' :: d :: rest → d.isDigit = false := by
  cases cs with
  | nil => simp [fraction]
  | cons e cs =>
    by_cases hpoint : e = '.'
    · subst hpoint
      cases cs with
      | nil => simp [fraction]
      | cons d rest => simp [fraction, List.takeWhile_cons]
    · simp [fraction, hpoint]

/-- Behind a fraction its run of digits ends. -/
theorem runEnds_drop_fraction (h : fraction cs ≠ []) :
    RunEnds Char.isDigit (cs.drop ((fraction cs).length + 1)) := by
  cases cs with
  | nil => exact absurd rfl h
  | cons e cs =>
    have hpoint : e = '.' := by
      by_contra hother
      exact h (by simp [fraction, hother])
    subst hpoint
    have happend := (List.cons.inj (fraction_append h)).2
    have hsplit := List.takeWhile_append_dropWhile (p := Char.isDigit) (l := cs)
    have hrest := List.append_cancel_left (happend.trans hsplit.symm)
    rw [hrest]
    exact runEnds_dropWhile Char.isDigit cs

/-- A number is maximal. -/
theorem maximal_cutNumber (hc : c.isDigit) {kind : Kind}
    (h : (cutNumber c cs).1.role = .token kind) :
    kind.Maximal (cutNumber c cs).1.text (cutNumber c cs).2 := by
  have hdigits : ∀ d ∈ c :: cs.takeWhile Char.isDigit, d.isDigit :=
    List.forall_mem_cons.mpr ⟨hc, fun d hd => of_mem_takeWhile hd⟩
  have hkind : ∃ value, kind = .number value := by
    simp only [cutNumber, numberRole] at h
    split at h <;> cases h
    exact ⟨_, rfl⟩
  obtain ⟨value, rfl⟩ := hkind
  change IsNumeral _ _
  simp only [cutNumber]
  by_cases hnone : fraction (cs.dropWhile Char.isDigit) = []
  · simp only [hnone, List.isEmpty_nil, if_true]
    exact .whole (by simp) hdigits (runEnds_dropWhile _ cs) (fraction_eq_nil_iff.mp hnone)
  · have hsome := List.isEmpty_eq_false_iff.mpr hnone
    simp only [hsome, Bool.false_eq_true, if_false]
    exact .decimals (by simp) hdigits hnone (fun d hd => isDigit_of_mem_fraction hd)
      (runEnds_drop_fraction hnone)

/-- A symbol of one character is cut off where no symbol of two fits. -/
theorem isSymbol_of_singleSymbol? {s : Symbol} (h : singleSymbol? c = some s)
    (hdouble : ∀ d ∈ cs.head?, doubleSymbol? c d = none) : IsSymbol s [c] cs where
  text := spells_singleSymbol? h
  star := by
    rintro rfl hhead
    obtain rfl : c = '*' := by simpa [Symbol.text] using spells_singleSymbol? h
    cases hdouble '*' hhead
  equal := by
    intro hs hhead
    have hnone := hdouble '=' hhead
    have htext := spells_singleSymbol? h
    rcases hs with rfl | rfl | rfl | rfl <;>
      (obtain rfl := List.singleton_inj.mp htext; cases hnone)

/-- A two-character symbol is the longest one in place. -/
theorem isSymbol_of_doubleSymbol? {d : Char} {s : Symbol} (h : doubleSymbol? c d = some s)
    (behind : List Char) : IsSymbol s [c, d] behind where
  text := spells_doubleSymbol? h
  star := by
    rintro rfl
    cases spells_doubleSymbol? h
  equal := by
    have htext := spells_doubleSymbol? h
    rintro (rfl | rfl | rfl | rfl) <;> cases htext

/-- A symbol is maximal, of one character or of two. -/
theorem maximal_cutSymbol {kind : Kind} (h : (cutSymbol c cs).1.role = .token kind) :
    kind.Maximal (cutSymbol c cs).1.text (cutSymbol c cs).2 := by
  have hsingle {cs : List Char} (hdouble : ∀ d ∈ cs.head?, doubleSymbol? c d = none)
      (h : (cutSingle c cs).1.role = .token kind) :
      kind.Maximal (cutSingle c cs).1.text (cutSingle c cs).2 := by
    unfold cutSingle at h ⊢
    cases hsymbol : singleSymbol? c with
    | none =>
      rw [hsymbol] at h
      cases h
    | some s =>
      rw [hsymbol] at h
      cases h
      exact isSymbol_of_singleSymbol? hsymbol hdouble
  cases cs with
  | nil => exact hsingle (by simp) h
  | cons d cs =>
    cases hdouble : doubleSymbol? c d with
    | none =>
      simp only [cutSymbol, hdouble] at h ⊢
      exact hsingle (by simpa using hdouble) h
    | some s =>
      simp only [cutSymbol, hdouble] at h ⊢
      cases h
      exact isSymbol_of_doubleSymbol? hdouble cs

end

/-- A piece that is a token is as long as it can be. -/
theorem maximal_cut {c : Char} {cs : List Char} {kind : Kind}
    (h : (cut c cs).1.role = .token kind) : kind.Maximal (cut c cs).1.text (cut c cs).2 := by
  have hcuts := cutsAs c
  generalize cut c = f at h hcuts
  cases hcuts with
  | gap => cases h
  | comment => cases h
  | lineBreak =>
    cases h
    trivial
  | string => exact maximal_cutString h
  | word hc =>
    cases h
    exact maximal_wordKind ⟨⟨c, _, rfl, hc⟩,
      List.forall_mem_cons.mpr ⟨isWordPart_of_isWordStart hc, fun d hd => of_mem_takeWhile hd⟩,
      runEnds_dropWhile isWordPart cs⟩
  | number hc => exact maximal_cutNumber hc h
  | symbol => exact maximal_cutSymbol h

/-! ## Tokens -/

/-- Every token with text is as long as it can be where it stands in the source, and it quotes its
text. -/
theorem maximal_scan (source : String) : ∀ t ∈ (scan source).tokens, t.hasText →
    ∃ text behind, Text.At source.toList t.span text behind ∧ t.Quotes text ∧
      t.kind.Maximal text behind := by
  intro t ht htext
  obtain ⟨c, rest, p, behind, hcut, hrole, hquotes, hat⟩ := exists_cut_of_mem ht htext
  have hmaximal : ∀ kind, (cut c rest).1.role = .token kind →
      kind.Maximal (cut c rest).1.text (cut c rest).2 := fun _ => maximal_cut
  rw [hcut] at hmaximal
  exact ⟨p.text, behind, hat, hquotes, hmaximal t.kind hrole⟩

/-- A number literal takes one fraction and leaves the point of what looks like another one. -/
theorem maximal_scan_pointBehind :
    ∃ t text behind, t ∈ (scan "x = 1.5.6").tokens ∧ t.hasText ∧ t.lexeme = "1.5" ∧
      Text.At "x = 1.5.6".toList t.span text behind ∧ t.Quotes text ∧
      t.kind.Maximal text behind := by
  let t : Token := ⟨.number (Number.ofDigits ['1'] ['5']), "1.5", 1, ⟨4, 7⟩⟩
  have ht : t ∈ (scan "x = 1.5.6").tokens := by
    rw [scan_eq_scanUpTo (n := 20) (by decide +kernel)]
    decide +kernel
  obtain ⟨text, behind, hplace⟩ := maximal_scan "x = 1.5.6" t ht rfl
  exact ⟨t, text, behind, ht, rfl, rfl, hplace⟩

end Offside
