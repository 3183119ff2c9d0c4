import Offside.Proofs.Relayout

/-!
# Spellings

What the text of a token tells about its kind. A name is a word that is not reserved, a reserved
word and a symbol are spelled in one way each, and the contents of a string are what stands between
its quotes.
-/

namespace Offside

open Piece

/-- How a kind of token is spelled, if all tokens of the kind are spelled alike. -/
def Kind.spelling? : Kind → Option String
  | .symbol s => some s.text
  | .keyword k => some k.text
  | _ => none

/-- The texts of the tokens with text of their own. -/
inductive Spelling : Kind → List Char → Prop
  | word {c : Char} {cs : List Char} : isWordStart c → (∀ d ∈ cs, isWordPart d) →
    Spelling (wordKind (c :: cs)) (c :: cs)
  | string {cs : List Char} : '"' ∉ cs → Spelling (.string (String.ofList cs)) ('"' :: cs ++ ['"'])
  | number {value : Float} {cs : List Char} : Spelling (.number value) cs
  | symbol (s : Symbol) : Spelling (.symbol s) s.text.toList

/-- A symbol of one character is spelled by it. -/
theorem spells_singleSymbol? {c : Char} {s : Symbol} (h : singleSymbol? c = some s) :
    [c] = s.text.toList := by
  unfold singleSymbol? at h
  split at h <;> cases h <;> rfl

/-- A symbol of two characters is spelled by them. -/
theorem spells_doubleSymbol? {c d : Char} {s : Symbol} (h : doubleSymbol? c d = some s) :
    [c, d] = s.text.toList := by
  unfold doubleSymbol? at h
  split at h <;> cases h <;> rfl

/-- A one-character symbol is cut from its spelling. -/
theorem spelling_of_cutSingle {kind : Kind} {c : Char} {cs text : List Char}
    (h : cutSingle c cs = (⟨.token kind, text⟩, [])) : Spelling kind text := by
  rw [cutSingle] at h
  cases hsymbol : singleSymbol? c with
  | none =>
    rw [hsymbol] at h
    cases h
  | some s =>
    rw [hsymbol] at h
    cases h
    rw [spells_singleSymbol? hsymbol]
    exact .symbol s

/-- So is a symbol of either length. -/
theorem spelling_of_cutSymbol {kind : Kind} {c : Char} {cs text : List Char}
    (h : cutSymbol c cs = (⟨.token kind, text⟩, [])) : Spelling kind text := by
  unfold cutSymbol at h
  split at h
  · exact spelling_of_cutSingle h
  split at h
  next d cs _ s hdouble =>
    cases h
    rw [spells_doubleSymbol? hdouble]
    exact .symbol s
  next => exact spelling_of_cutSingle h

/-- A token that is cut off as it is has a text of its kind. -/
theorem Piece.StandsAlone.spelling {kind : Kind} {text : List Char}
    (h : StandsAlone ⟨.token kind, text⟩) (hkind : kind.isStructural = false) :
    Spelling kind text := by
  obtain ⟨c, cs, rfl, hcut⟩ := h
  have hcut := hcut [] (by simp [Separated])
  rw [List.append_nil] at hcut
  have hcuts := cutsAs c
  generalize cut c = f at hcut hcuts
  cases hcuts with
  | gap => cases hcut
  | comment => cases hcut
  | lineBreak =>
    cases hcut
    cases hkind
  | string =>
    unfold cutString at hcut
    split at hcut
    next => cases hcut
    next =>
      obtain ⟨htoken, -⟩ := Prod.mk.inj hcut
      obtain ⟨hrole, htext⟩ := Piece.mk.inj htoken
      cases hrole
      rw [← htext]
      refine .string fun hmem => ?_
      simpa using of_mem_takeWhile hmem
  | word hc =>
    obtain ⟨htoken, -⟩ := Prod.mk.inj hcut
    obtain ⟨hrole, htext⟩ := Piece.mk.inj htoken
    obtain ⟨-, hcs⟩ := List.cons.inj htext
    rw [hcs] at hrole
    cases hrole
    exact .word hc fun d hd => of_mem_takeWhile (hcs.symm ▸ hd)
  | number =>
    have hrole := congrArg (·.1.role) hcut
    simp only [cutNumber, numberRole] at hrole
    split at hrole <;> cases hrole
    exact .number
  | symbol => exact spelling_of_cutSymbol hcut

/-- A token that is spelled as text has a spelling of its kind. -/
theorem Token.Spelled.spelling {t : Token} (h : t.Spelled) (hkind : t.kind.isStructural = false) :
    Spelling t.kind t.lexeme.toList :=
  (h.alone hkind).spelling hkind

/-- Every token of a source is spelled as its kind is. -/
theorem spelled_scan (source : String) : ∀ t ∈ (scan source).tokens, t.Spelled := by
  rw [tokens_scan]
  exact Layout.spelled_output (allProper_pieces source.toList) {}

/-- A reserved word is spelled by its letters. -/
theorem text_of_ofText? {word : String} {k : Keyword} (h : Keyword.ofText? word = some k) :
    word = k.text := by
  have htext := List.find?_some h
  exact (eq_of_beq htext).symm

/-- A word is a name exactly if it is not reserved. -/
theorem wordKind_eq_identifier_iff {cs : List Char} :
    wordKind cs = .identifier ↔ Keyword.ofText? (String.ofList cs) = none := by
  rw [wordKind]
  split <;> simp_all

/-- A symbol or reserved word is spelled in one way. -/
theorem Token.Spelled.spelling?_eq {t : Token} (h : t.Spelled) {spelling : String}
    (hspelling : t.kind.spelling? = some spelling) : t.lexeme = spelling := by
  have hkind : t.kind.isStructural = false := by
    cases hk : t.kind <;> rw [hk] at hspelling <;> first | rfl | cases hspelling
  have htext := h.spelling hkind
  generalize hletters : t.lexeme.toList = letters at htext
  generalize t.kind = kind at hspelling htext
  cases htext with
  | @word c cs =>
    rw [wordKind, ← hletters, String.ofList_toList] at hspelling
    split at hspelling
    next k hk =>
      cases hspelling
      exact text_of_ofText? hk
    next => cases hspelling
  | string => cases hspelling
  | number => cases hspelling
  | symbol s =>
    cases hspelling
    exact String.toList_inj.mp hletters

/-- No quote stands inside a string. -/
theorem Spelling.quote_not_mem {contents : String} {letters : List Char}
    (h : Spelling (.string contents) letters) : '"' ∉ contents.toList := by
  generalize hkind : Kind.string contents = kind at h
  cases h with
  | word =>
    rw [wordKind] at hkind
    split at hkind <;> cases hkind
  | string hcs =>
    cases hkind
    simpa using hcs
  | number => cases hkind
  | symbol => cases hkind

end Offside
