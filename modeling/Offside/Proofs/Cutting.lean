import Offside.Token.Piece

/-!
# Cutting a text at the end of a line

A piece never reaches over the end of a line, except a string. So the pieces of a text that ends
with a line break and leaves no string open are the same in front of any other text, and the last of
them is the line break.
-/

namespace Offside

/-- A character that ends a run stands behind it. -/
theorem mem_dropWhile_of_not {p : Char → Bool} {cs : List Char} {c : Char} (hc : c ∈ cs)
    (hp : p c = false) : c ∈ cs.dropWhile p := by
  have hsplit := List.takeWhile_append_dropWhile (p := p) (l := cs)
  rw [← hsplit, List.mem_append] at hc
  refine hc.resolve_left fun htake => ?_
  have hall := List.all_eq_true.mp (List.all_takeWhile (p := p) (l := cs)) c htake
  rw [hp] at hall
  cases hall

/-- A run that ends inside a text is not longer in front of another text. -/
theorem run_append {p : Char → Bool} {cs : List Char} {c : Char} (hc : c ∈ cs) (hp : p c = false)
    (ds : List Char) :
    (cs ++ ds).takeWhile p = cs.takeWhile p ∧ (cs ++ ds).dropWhile p = cs.dropWhile p ++ ds := by
  have hne : cs.dropWhile p ≠ [] := List.ne_nil_of_mem (mem_dropWhile_of_not hc hp)
  have hlength : (cs.takeWhile p).length ≠ cs.length := by
    have hsplit := congrArg List.length (List.takeWhile_append_dropWhile (p := p) (l := cs))
    have hpos := List.length_pos_iff.mpr hne
    rw [List.length_append] at hsplit
    omega
  rw [List.takeWhile_append, if_neg hlength, List.dropWhile_append, if_neg (by simpa using hne)]
  exact ⟨rfl, rfl⟩

namespace Piece

/-- A cut with another text behind what follows the piece. -/
def Cut.followedBy (cut : Cut) (ds : List Char) : Cut := (cut.1, cut.2 ++ ds)

variable {c : Char} {cs : List Char}

/-- A run that stops at line breaks is not longer if something follows the line. -/
theorem cutRun_followedBy (role : List Char → Role) {p : Char → Bool} (hp : p '\n' = false)
    (hcs : '\n' ∈ cs) (ds : List Char) :
    cutRun role p c (cs ++ ds) = (cutRun role p c cs).followedBy ds := by
  obtain ⟨htake, hdrop⟩ := run_append hcs hp ds
  simp [cutRun, htake, hdrop, Cut.followedBy]

/-- A string that is closed ends at the same quote whatever follows. -/
theorem cutString_followedBy (hterminated : (cutString cs).1.role ≠ .unterminated)
    (ds : List Char) : cutString (cs ++ ds) = (cutString cs).followedBy ds := by
  have hquote : '"' ∈ cs := by
    unfold cutString at hterminated
    split at hterminated
    next => exact absurd rfl hterminated
    next quote rest hdrop =>
      have hhead := List.head?_dropWhile_not (· ≠ '"') cs
      have hmem : quote ∈ cs.dropWhile (· ≠ '"') := by
        rw [hdrop]
        exact List.mem_cons_self
      rw [hdrop] at hhead
      obtain rfl : quote = '"' := by simpa using hhead
      exact (List.dropWhile_suffix _).mem hmem
  obtain ⟨htake, hdrop⟩ := run_append (p := (· ≠ '"')) hquote (by decide) ds
  have hmem : '"' ∈ cs.dropWhile (· ≠ '"') := mem_dropWhile_of_not hquote (by decide)
  unfold cutString
  rw [htake, hdrop]
  generalize cs.dropWhile (· ≠ '"') = rest at hmem
  cases rest with
  | nil => cases hmem
  | cons quote rest => rfl

/-- The fraction of a number ends on the line of the number. -/
theorem fraction_followedBy (hcs : '\n' ∈ cs) (ds : List Char) :
    fraction (cs ++ ds) = fraction cs := by
  cases cs with
  | nil => cases hcs
  | cons d cs =>
    by_cases hpoint : d = '.'
    · subst hpoint
      have hmem : '\n' ∈ cs := by simpa using hcs
      exact (run_append hmem (by decide) ds).1
    · simp [fraction, hpoint]

/-- So does the number. -/
theorem cutNumber_followedBy (hcs : '\n' ∈ cs) (ds : List Char) :
    cutNumber c (cs ++ ds) = (cutNumber c cs).followedBy ds := by
  obtain ⟨htake, hdrop⟩ := run_append (p := Char.isDigit) hcs (by decide) ds
  have hmem : '\n' ∈ cs.dropWhile Char.isDigit := mem_dropWhile_of_not hcs (by decide)
  simp only [cutNumber, htake, hdrop, fraction_followedBy hmem, Cut.followedBy]
  split
  · rfl
  next hdecimals =>
    have hne : fraction (cs.dropWhile Char.isDigit) ≠ [] := by simpa using hdecimals
    have hlength := congrArg List.length (fraction_append hne)
    rw [List.length_append, List.length_cons] at hlength
    rw [List.drop_append_of_le_length (by omega)]

/-- A symbol of one character does not depend on what follows. -/
theorem cutSingle_followedBy (c : Char) (cs ds : List Char) :
    cutSingle c (cs ++ ds) = (cutSingle c cs).followedBy ds := by
  unfold cutSingle
  split <;> rfl

/-- Nor does a symbol of two characters if the line goes on behind the first one. -/
theorem cutSymbol_followedBy (hcs : '\n' ∈ cs) (ds : List Char) :
    cutSymbol c (cs ++ ds) = (cutSymbol c cs).followedBy ds := by
  cases cs with
  | nil => cases hcs
  | cons d cs =>
    simp only [cutSymbol, List.cons_append]
    split
    · rfl
    · exact cutSingle_followedBy c (d :: cs) ds

/-- A piece that does not reach the end of a text is the same in front of any other text. -/
theorem cut_followedBy (hend : (c :: cs).getLast? = some '\n')
    (hterminated : (cut c cs).1.role ≠ .unterminated) (ds : List Char) :
    cut c (cs ++ ds) = (cut c cs).followedBy ds := by
  by_cases hc : c = '\n'
  · subst hc
    rfl
  · have hcs : '\n' ∈ cs := by
      have hmem := List.mem_of_getLast? hend
      simpa [Ne.symm hc] using hmem
    unfold cut at hterminated ⊢
    split
    · exact cutRun_followedBy _ (by decide) hcs ds
    next hgap =>
    split
    · exact cutRun_followedBy _ (by decide) hcs ds
    next hcomment =>
    split
    next hquote =>
      rw [if_neg hgap, if_neg hcomment, if_neg hc, if_pos hquote] at hterminated
      exact cutString_followedBy hterminated ds
    split
    · exact cutRun_followedBy _ (by decide) hcs ds
    split
    · exact cutNumber_followedBy hcs ds
    · exact cutSymbol_followedBy hcs ds

/-- What follows a piece of a text ends as the text does, if there is anything. -/
theorem getLast?_cut {d : Char} (hend : (c :: cs).getLast? = some d) (hrest : (cut c cs).2 ≠ []) :
    (cut c cs).2.getLast? = some d := by
  rw [← cut_append c cs, List.getLast?_append] at hend
  cases hlast : (cut c cs).2.getLast? with
  | none => exact absurd (List.getLast?_eq_none_iff.mp hlast) hrest
  | some e =>
    rw [hlast] at hend
    exact hend

/-- A string that is closed does not take the line break at the end. -/
theorem cutString_ne_nil (hend : cs.getLast? = some '\n')
    (hterminated : (cutString cs).1.role ≠ .unterminated) : (cutString cs).2 ≠ [] := by
  intro hnil
  have happend := congrArg List.getLast? (cutString_append cs)
  rw [hnil, List.append_nil, List.getLast?_cons, hend] at happend
  unfold cutString at hterminated happend
  split at hterminated
  next => exact absurd rfl hterminated
  next quote rest hdrop =>
    rw [hdrop] at happend
    change ('"' :: cs.takeWhile (· ≠ '"') ++ ['"']).getLast? = some '\n' at happend
    rw [List.getLast?_concat] at happend
    cases happend

/-- A fraction holds digits only. -/
theorem isDigit_of_mem_fraction {d : Char} (h : d ∈ fraction cs) : d.isDigit := by
  unfold fraction at h
  split at h
  · exact List.all_eq_true.mp List.all_takeWhile d h
  · cases h

/-- A number does not take the line break behind it. -/
theorem cutNumber_ne_nil (hcs : '\n' ∈ cs) : (cutNumber c cs).2 ≠ [] := by
  have hmem : '\n' ∈ cs.dropWhile Char.isDigit := mem_dropWhile_of_not hcs (by decide)
  simp only [cutNumber]
  split
  · exact List.ne_nil_of_mem hmem
  next hdecimals =>
    have hne : fraction (cs.dropWhile Char.isDigit) ≠ [] := by simpa using hdecimals
    rw [← fraction_append hne, List.mem_append] at hmem
    refine List.ne_nil_of_mem (hmem.resolve_left fun hdecimal => ?_)
    rcases List.mem_cons.mp hdecimal with hpoint | hdigit
    · cases hpoint
    · cases isDigit_of_mem_fraction hdigit

/-- Nor does a symbol. -/
theorem cutSymbol_ne_nil (hcs : '\n' ∈ cs) : (cutSymbol c cs).2 ≠ [] := by
  cases cs with
  | nil => cases hcs
  | cons d cs =>
    simp only [cutSymbol]
    split
    next s hdouble =>
      have hd : d ≠ '\n' := by
        rintro rfl
        simp [doubleSymbol?] at hdouble
      have hmem : '\n' ∈ cs := by simpa [Ne.symm hd] using hcs
      exact List.ne_nil_of_mem hmem
    next =>
      unfold cutSingle
      split <;> exact List.cons_ne_nil d cs

/-- Only a line break ends a text whose last line is ended. -/
theorem cut_ne_nil (hc : c ≠ '\n') (hend : (c :: cs).getLast? = some '\n')
    (hterminated : (cut c cs).1.role ≠ .unterminated) : (cut c cs).2 ≠ [] := by
  have hcs : '\n' ∈ cs := by simpa [Ne.symm hc] using List.mem_of_getLast? hend
  have hrun {p : Char → Bool} (hp : p '\n' = false) : cs.dropWhile p ≠ [] :=
    List.ne_nil_of_mem (mem_dropWhile_of_not hcs hp)
  unfold cut at hterminated ⊢
  split
  · exact hrun (by decide)
  next hgap =>
  split
  · exact hrun (by decide)
  next hcomment =>
  split
  next hquote =>
    rw [if_neg hgap, if_neg hcomment, if_neg hc, if_pos hquote] at hterminated
    have hlast : cs.getLast? = some '\n' := by
      cases cs with
      | nil => cases hcs
      | cons d cs => simpa using hend
    exact cutString_ne_nil hlast hterminated
  split
  · exact hrun (by decide)
  split
  · exact cutNumber_ne_nil hcs
  · exact cutSymbol_ne_nil hcs

/-- A piece is never read as the end of the input. -/
theorem cut_role_ne_endOfInput (c : Char) (cs : List Char) :
    (cut c cs).1.role ≠ .token .endOfInput := by
  unfold cut
  split
  · simp [cutRun]
  split
  · simp [cutRun]
  split
  · simp
  split
  · unfold cutString
    split <;> simp
  split
  · simp only [cutRun, wordKind]
    split <;> simp
  split
  · simp only [cutNumber, numberRole]
    split <;> simp
  · unfold cutSymbol cutSingle
    repeat' split
    all_goals simp

end Piece

/-- The pieces of a text whose last line is ended do not depend on what follows it. -/
theorem pieces_append {cs : List Char} (hend : cs = [] ∨ cs.getLast? = some '\n')
    (hterminated : ∀ p ∈ pieces cs, p.role ≠ .unterminated) (ds : List Char) :
    pieces (cs ++ ds) = pieces cs ++ pieces ds := by
  induction h : cs.length using Nat.strongRecOn generalizing cs with
  | _ n ih =>
    cases cs with
    | nil => simp
    | cons c cs =>
      have hline := hend.resolve_left (List.cons_ne_nil c cs)
      rw [pieces_cons] at hterminated
      have hcut := Piece.cut_followedBy hline (hterminated _ List.mem_cons_self) ds
      have hrest : (Piece.cut c cs).2 = [] ∨ (Piece.cut c cs).2.getLast? = some '\n' := by
        by_cases hnil : (Piece.cut c cs).2 = []
        · exact .inl hnil
        · exact .inr (Piece.getLast?_cut hline hnil)
      rw [List.cons_append, pieces_cons, hcut, Piece.Cut.followedBy,
        ih _ (h ▸ Piece.length_cut_lt c cs) hrest
          (fun p hp => hterminated p (List.mem_cons_of_mem _ hp)) rfl,
        pieces_cons, List.cons_append]

/-- The line break at the end of a text is a piece of its own. -/
theorem exists_pieces_eq_append {cs : List Char} (hend : cs.getLast? = some '\n')
    (hterminated : ∀ p ∈ pieces cs, p.role ≠ .unterminated) :
    ∃ ps, pieces cs = ps ++ [⟨.token .newline, ['\n']⟩] := by
  induction h : cs.length using Nat.strongRecOn generalizing cs with
  | _ n ih =>
    cases cs with
    | nil => cases hend
    | cons c cs =>
      rw [pieces_cons] at hterminated
      by_cases hnil : (Piece.cut c cs).2 = []
      · have hc : c = '\n' := by
          refine Decidable.byContradiction fun hc => ?_
          exact Piece.cut_ne_nil hc hend (hterminated _ List.mem_cons_self) hnil
        subst hc
        obtain rfl : cs = [] := hnil
        exact ⟨[], by rw [pieces_cons]; simp [Piece.cut, Piece.isGap]⟩
      · obtain ⟨ps, hps⟩ := ih _ (h ▸ Piece.length_cut_lt c cs) (Piece.getLast?_cut hend hnil)
          (fun p hp => hterminated p (List.mem_cons_of_mem _ hp)) rfl
        exact ⟨(Piece.cut c cs).1 :: ps, by rw [pieces_cons, hps, List.cons_append]⟩

/-- The end of input is no piece of a text. -/
theorem role_ne_endOfInput (cs : List Char) : ∀ p ∈ pieces cs, p.role ≠ .token .endOfInput := by
  induction h : cs.length using Nat.strongRecOn generalizing cs with
  | _ n ih =>
    cases cs with
    | nil => simp
    | cons c cs =>
      rw [pieces_cons]
      exact List.forall_mem_cons.mpr
        ⟨Piece.cut_role_ne_endOfInput c cs, ih _ (h ▸ Piece.length_cut_lt c cs) _ rfl⟩

/-- At most `n` pieces of a text, by recursion on their number. -/
def cutUpTo : Nat → List Char → List Piece
  | 0, _ => []
  | _, [] => []
  | n + 1, c :: cs => (Piece.cut c cs).1 :: cutUpTo n (Piece.cut c cs).2

/-- A text has no more pieces than characters. -/
theorem pieces_eq_cutUpTo {n : Nat} {cs : List Char} (h : cs.length ≤ n) :
    pieces cs = cutUpTo n cs := by
  induction n generalizing cs with
  | zero =>
    rw [List.length_eq_zero_iff.mp (Nat.le_zero.mp h)]
    exact pieces_nil
  | succ n ih =>
    cases cs with
    | nil => exact pieces_nil
    | cons c cs =>
      have hlt := Piece.length_cut_lt c cs
      rw [pieces_cons, cutUpTo, ih (by omega)]

end Offside
