import Offside.Proofs.Coverage

/-!
# Where tokens come from

Every token with text of its own is read off one piece of the source, and every piece was cut off
from a text that starts with it. So what is known of a piece and the rest when it is cut off is
known of the text of a token and what stands behind it.
-/

namespace Offside

namespace Layout

/-- A token of the regions comes from a piece. -/
theorem exists_piece_of_token {ps : List Piece} {s : Layout} {before after : List Token} {t : Token}
    (h : regionTokens (s.regions ps) = before ++ t :: after) :
    ∃ ps₁ p ps₂, ps = ps₁ ++ p :: ps₂ ∧ (s.after ps₁).fate p = .token t ∧
      regionTokens (((s.after ps₁).next p).regions ps₂) = after := by
  induction ps generalizing s before with
  | nil => simp [regions] at h
  | cons p ps ih =>
    rw [regions, regionTokens_cons] at h
    have hlater {before : List Token}
        (h : regionTokens ((s.next p).regions ps) = before ++ t :: after) :
        ∃ ps₁ q ps₂, p :: ps = ps₁ ++ q :: ps₂ ∧ (s.after ps₁).fate q = .token t ∧
          regionTokens (((s.after ps₁).next q).regions ps₂) = after := by
      obtain ⟨ps₁, q, ps₂, rfl, hfate, hafter⟩ := ih h
      exact ⟨p :: ps₁, q, ps₂, rfl, hfate, hafter⟩
    cases hfate : (s.fate p).token? with
    | none =>
      simp only [hfate, Option.toList_none, List.nil_append] at h
      exact hlater h
    | some u =>
      simp only [hfate, Option.toList_some, List.singleton_append] at h
      cases before with
      | nil =>
        obtain ⟨rfl, hafter⟩ := List.cons.inj h
        exact ⟨[], p, ps, rfl, Fate.token?_eq_some hfate, hafter⟩
      | cons u' before => exact hlater (List.cons.inj h).2

/-- A token has the role and the place of the piece that it is read off. -/
theorem role_of_fate {s : Layout} {p : Piece} {t : Token} (h : s.fate p = .token t) :
    p.role = .token t.kind ∧ t.span = s.spanOf p.text := by
  obtain ⟨role, text⟩ := p
  cases role with
  | token kind =>
    by_cases hkind : kind = .newline
    · subst hkind
      unfold fate at h
      simp only at h
      split at h <;> cases h
      exact ⟨rfl, rfl⟩
    · rw [fate_token hkind] at h
      cases h
      exact ⟨rfl, rfl⟩
  | _ => cases h

/-- A token quotes the text of its piece. -/
theorem quotes_of_fate {s : Layout} {p : Piece} {t : Token} {rest : List Char} (hp : p.Proper rest)
    (h : s.fate p = .token t) : t.Quotes p.text := by
  obtain ⟨role, text⟩ := p
  cases role with
  | token kind =>
    by_cases hkind : kind = .newline
    · subst hkind
      have htext : text = ['\n'] := hp
      rwa [Token.Quotes, if_pos (Piece.Role.token.inj (role_of_fate h).1).symm]
    · rw [fate_token hkind] at h
      cases h
      rw [Token.Quotes, if_neg hkind]
  | _ => cases h

/-- A token stands where its piece does. -/
theorem at_of_fate {cs : List Char} {ps₁ ps₂ : List Piece} {p : Piece} {t : Token}
    (hpieces : pieces cs = ps₁ ++ p :: ps₂) (hfate : (after {} ps₁).fate p = .token t) :
    Text.At cs t.span p.text (ps₂.flatMap Piece.text) := by
  have hoffset : (after {} ps₁).offset = Text.byteLength (ps₁.flatMap Piece.text) := by
    rw [offset_after]
    exact Nat.zero_add _
  refine ⟨ps₁.flatMap Piece.text, ?_, ?_, ?_⟩
  · rw [← flatMap_text_pieces cs, hpieces, List.flatMap_append, List.flatMap_cons]
  · rw [(role_of_fate hfate).2, ← hoffset]
    rfl
  · rw [(role_of_fate hfate).2, Text.byteLength_append, ← hoffset]
    rfl

end Layout

/-- Every piece was cut off from a text that starts with it. -/
theorem exists_cut_of_pieces {cs : List Char} {ps₁ ps₂ : List Piece} {p : Piece}
    (h : pieces cs = ps₁ ++ p :: ps₂) :
    ∃ c rest, Piece.cut c rest = (p, ps₂.flatMap Piece.text) := by
  induction ps₁ generalizing cs with
  | nil =>
    cases cs with
    | nil => simp at h
    | cons c cs =>
      rw [pieces_cons] at h
      obtain ⟨rfl, rfl⟩ := List.cons.inj h
      exact ⟨c, cs, by rw [flatMap_text_pieces]⟩
  | cons q ps₁ ih =>
    cases cs with
    | nil => simp at h
    | cons c cs =>
      rw [pieces_cons] at h
      exact ih (List.cons.inj h).2

/-- A token with text was cut off from a text that starts with it, and it stands in front of the
rest of that text. -/
theorem exists_cut_of_mem {source : String} {t : Token} (ht : t ∈ (scan source).tokens)
    (htext : t.hasText) :
    ∃ c rest p behind, Piece.cut c rest = (p, behind) ∧ p.role = .token t.kind ∧
      t.Quotes p.text ∧ Text.At source.toList t.span p.text behind := by
  have hmem : t ∈ regionTokens (Layout.regions {} (pieces source.toList)) := by
    rw [(covers_scan source).tokens]
    exact List.mem_filter.mpr ⟨ht, htext⟩
  obtain ⟨before, after, hregions⟩ := List.append_of_mem hmem
  obtain ⟨ps₁, p, ps₂, hpieces, hfate, -⟩ := Layout.exists_piece_of_token hregions
  obtain ⟨c, rest, hcut⟩ := exists_cut_of_pieces hpieces
  have hproper := Piece.proper_cut c rest
  rw [hcut] at hproper
  exact ⟨c, rest, p, _, hcut, (Layout.role_of_fate hfate).1, Layout.quotes_of_fate hproper hfate,
    Layout.at_of_fate hpieces hfate⟩

end Offside
