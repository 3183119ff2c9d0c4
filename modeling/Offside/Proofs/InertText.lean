import Offside.Proofs.Pieces

/-!
# Text between the lines of a program

Blanks and comments are no tokens, and no token goes on with one. So if blanks, a comment or a line
break are put behind a text, its pieces stay as they are, except perhaps the last one: a run of
blanks, a comment or a string goes on. Behind blanks and comments at the end of a line the pieces go
on with the line break.
-/

namespace Offside

/-- Text that is no token: a run of blanks, perhaps with a comment behind it. -/
inductive Inert : List Char → Prop
  | blanks {cs : List Char} : (∀ c ∈ cs, Piece.isGap c) → Inert cs
  | comment {cs ds : List Char} : (∀ c ∈ cs, Piece.isGap c) → '\n' ∉ ds → Inert (cs ++ '#' :: ds)

/-- Every character differs from one that is absent. -/
theorem all_ne {c : Char} {cs : List Char} (h : c ∉ cs) : ∀ d ∈ cs, decide (d ≠ c) = true :=
  fun _ hd => decide_eq_true fun heq => h (heq ▸ hd)

/-- Nothing but the end of a line may follow. -/
def LineEnds (rest : List Char) : Prop := ∀ c ∈ rest.head?, c = '\n'

namespace Inert

variable {cs ds : List Char}

/-- Inert text holds no line break. -/
theorem not_mem_newline (h : Inert cs) : '\n' ∉ cs := by
  have hgaps {cs : List Char} (hcs : ∀ c ∈ cs, Piece.isGap c) : '\n' ∉ cs := by
    intro hmem
    have hgap := hcs '\n' hmem
    cases hgap
  cases h with
  | blanks hcs => exact hgaps hcs
  | comment hcs hds => simp [hgaps hcs, hds]

/-- Blanks and comments behind each other are blanks and a comment. -/
theorem append (hcs : Inert cs) (hds : Inert ds) : Inert (cs ++ ds) := by
  cases hcs with
  | blanks hcs =>
    cases hds with
    | blanks hds => exact .blanks (List.forall_mem_append.mpr ⟨hcs, hds⟩)
    | comment hds hes =>
      rw [← List.append_assoc]
      exact .comment (List.forall_mem_append.mpr ⟨hcs, hds⟩) hes
  | comment hcs hes =>
    rw [List.append_assoc, List.cons_append]
    exact .comment hcs (by simp [hes, hds.not_mem_newline])

end Inert

namespace Piece

/-! ## What no token goes on with -/

/-- The characters that start a run of blanks, a comment or a line break. -/
def bluntChars : List Char := [' ', '\t', '\r', '\x0c', '#', '\n']

/-- Nothing, a blank, a comment or a line break follows. -/
def Blunt (rest : List Char) : Prop := ∀ c ∈ rest.head?, c ∈ bluntChars

/-- A run of other characters ends at blunt text. -/
theorem Blunt.runEnds {rest : List Char} (h : Blunt rest) {p : Char → Bool}
    (hp : bluntChars.any p = false) : RunEnds p rest := by
  intro c hc
  simpa using List.any_eq_false.mp hp c (h c hc)

/-- The end of a line is blunt. -/
theorem blunt_of_lineEnds {rest : List Char} (h : LineEnds rest) : Blunt rest := by
  intro c hc
  rw [h c hc]
  decide

/-- Inert text up to the end of a line is blunt. -/
theorem blunt_inert {cs rest : List Char} (hcs : Inert cs) (hrest : LineEnds rest) :
    Blunt (cs ++ rest) := by
  have hgaps {cs rest : List Char} (hcs : ∀ c ∈ cs, isGap c) (hrest : Blunt rest) :
      Blunt (cs ++ rest) := by
    cases cs with
    | nil => exact hrest
    | cons c cs =>
      intro d hd
      obtain rfl : c = d := by simpa using hd
      have hgap := hcs c List.mem_cons_self
      simp only [isGap, Bool.or_eq_true, beq_iff_eq] at hgap
      rcases hgap with ((rfl | rfl) | rfl) | rfl <;> decide
  cases hcs with
  | blanks hcs => exact hgaps hcs (blunt_of_lineEnds hrest)
  | comment hcs hds =>
    rw [List.append_assoc]
    refine hgaps hcs fun c hc => ?_
    obtain rfl : '#' = c := by simpa using hc
    decide

/-- A run that ends inside a text or in front of what follows is not longer in front of that. -/
theorem run_append_of_ends {p : Char → Bool} (cs : List Char) {rest : List Char}
    (h : cs.all p = false ∨ RunEnds p rest) :
    (cs ++ rest).takeWhile p = cs.takeWhile p ∧
      (cs ++ rest).dropWhile p = cs.dropWhile p ++ rest := by
  cases hall : cs.all p with
  | false =>
    obtain ⟨c, hc, hp⟩ := List.all_eq_false.mp hall
    exact run_append hc (by simpa using hp) rest
  | true =>
    have hcs := List.all_eq_true.mp hall
    have hrest : RunEnds p rest := h.resolve_left (by simp [hall])
    obtain ⟨htake, hdrop⟩ := run_exact hcs hrest
    have hnil : RunEnds p [] := by simp [RunEnds]
    obtain ⟨htake', hdrop'⟩ := run_exact hcs hnil
    rw [List.append_nil] at htake' hdrop'
    rw [htake, hdrop, htake', hdrop']
    exact ⟨rfl, rfl⟩

section

variable {c : Char} {cs rest : List Char}

/-- A run that ends is cut the same whatever follows. -/
theorem cutRun_of_ends (role : List Char → Role) {p : Char → Bool}
    (h : cs.all p = false ∨ RunEnds p rest) :
    cutRun role p c (cs ++ rest) = (cutRun role p c cs).followedBy rest := by
  obtain ⟨htake, hdrop⟩ := run_append_of_ends cs h
  simp [cutRun, htake, hdrop, Cut.followedBy]

/-- Blunt text adds nothing to a fraction. -/
theorem fraction_blunt (h : Blunt rest) (cs : List Char) :
    fraction (cs ++ rest) = fraction cs := by
  cases cs with
  | nil =>
    cases rest with
    | nil => rfl
    | cons d rest =>
      have hpoint : d ≠ '.' := by
        rintro rfl
        exact absurd (h '.' rfl) (by decide)
      simp [fraction, hpoint]
  | cons d cs =>
    by_cases hpoint : d = '.'
    · subst hpoint
      exact (run_append_of_ends cs (.inr (h.runEnds rfl))).1
    · simp [fraction, hpoint]

/-- Blunt text adds nothing to a number. -/
theorem cutNumber_blunt (h : Blunt rest) :
    cutNumber c (cs ++ rest) = (cutNumber c cs).followedBy rest := by
  obtain ⟨htake, hdrop⟩ :=
    run_append_of_ends (p := Char.isDigit) cs (.inr (h.runEnds rfl))
  simp only [cutNumber, htake, hdrop, fraction_blunt h, Cut.followedBy]
  split
  · rfl
  next hdecimals =>
    have hne : fraction (cs.dropWhile Char.isDigit) ≠ [] := by simpa using hdecimals
    have hlength := congrArg List.length (fraction_append hne)
    rw [List.length_append, List.length_cons] at hlength
    rw [List.drop_append_of_le_length (by omega)]

/-- A string with a closing quote is terminated. -/
theorem cutString_of_mem (h : '"' ∈ cs) : (cutString cs).1.role ≠ .unterminated := by
  have hmem : '"' ∈ cs.dropWhile (· ≠ '"') := mem_dropWhile_of_not h (by decide)
  unfold cutString
  split
  next hnil =>
    rw [hnil] at hmem
    cases hmem
  next => simp

/-- No two-character symbol ends in a blunt character. -/
theorem doubleSymbol?_eq_none {d : Char} (hd : d ∈ bluntChars) :
    doubleSymbol? c d = none := by
  unfold doubleSymbol?
  split <;> first | rfl | exact absurd hd (by decide)

/-- Blunt text adds nothing to a symbol. -/
theorem cutSymbol_blunt (h : Blunt rest) :
    cutSymbol c (cs ++ rest) = (cutSymbol c cs).followedBy rest := by
  cases cs with
  | nil =>
    have hsingle : cutSymbol c rest = cutSingle c rest := by
      cases rest with
      | nil => rfl
      | cons d rest => simp [cutSymbol, doubleSymbol?_eq_none (h d rfl)]
    rw [List.nil_append, hsingle]
    exact cutSingle_followedBy c [] rest
  | cons d cs =>
    simp only [cutSymbol, List.cons_append]
    split
    · rfl
    · exact cutSingle_followedBy c (d :: cs) rest

end

/-! ## Pieces at the end of a text -/

/-- The end of a text that a piece goes on from, if there is more text. -/
inductive Unfinished : List Char → Prop
  | inert {cs : List Char} : Inert cs → Unfinished cs
  | string {cs : List Char} : '"' ∉ cs → Unfinished ('"' :: cs)

/-- A piece at the start of a text is unfinished or the same in front of what it cannot go on
with. -/
theorem cut_blunt (c : Char) (cs : List Char) :
    Unfinished (c :: cs) ∨
      ∀ rest, Blunt rest → cut c (cs ++ rest) = (cut c cs).followedBy rest := by
  have hcuts := cutsAs c
  generalize cut c = f at hcuts ⊢
  cases hcuts with
  | gap hgap =>
    cases hall : cs.all isGap with
    | true =>
      have hgaps : ∀ d ∈ c :: cs, isGap d :=
        List.forall_mem_cons.mpr ⟨hgap, List.all_eq_true.mp hall⟩
      exact .inl (.inert (.blanks hgaps))
    | false => exact .inr fun rest _ => cutRun_of_ends _ (.inl hall)
  | comment hc =>
    by_cases hline : '\n' ∈ cs
    · have hends : cs.all (· ≠ '\n') = false :=
        List.all_eq_false.mpr ⟨'\n', hline, by decide⟩
      exact .inr fun rest _ => cutRun_of_ends _ (.inl hends)
    · have hinert : Inert ([] ++ '#' :: cs) := .comment (by simp) hline
      rw [hc]
      exact .inl (.inert hinert)
  | lineBreak hc => exact .inr fun rest _ => rfl
  | string hc =>
    by_cases hquote : '"' ∈ cs
    · exact .inr fun rest _ => cutString_followedBy (cutString_of_mem hquote) rest
    · rw [hc]
      exact .inl (.string hquote)
  | word hword => exact .inr fun rest hrest => cutRun_of_ends _ (.inr (hrest.runEnds rfl))
  | number hdigit => exact .inr fun rest hrest => cutNumber_blunt hrest
  | symbol => exact .inr fun rest hrest => cutSymbol_blunt hrest

end Piece

open Piece

/-- All pieces of a text but an unfinished one at its end are the same in front of what they cannot
go on with. -/
theorem exists_pieces_append_of_blunt (cs : List Char) :
    ∃ ps unfinished, cs = ps.flatMap Piece.text ++ unfinished ∧ Unfinished unfinished ∧
      ∀ rest, Blunt rest → pieces (cs ++ rest) = ps ++ pieces (unfinished ++ rest) := by
  induction h : cs.length using Nat.strongRecOn generalizing cs with
  | _ n ih =>
    cases cs with
    | nil => exact ⟨[], [], rfl, .inert (.blanks (by simp)), fun rest _ => rfl⟩
    | cons c cs =>
      rcases cut_blunt c cs with hunfinished | hcut
      · exact ⟨[], c :: cs, rfl, hunfinished, fun rest _ => rfl⟩
      · obtain ⟨ps, unfinished, htext, hunfinished, hpieces⟩ :=
          ih _ (h ▸ length_cut_lt c cs) (cut c cs).2 rfl
        refine ⟨(cut c cs).1 :: ps, unfinished, ?_, hunfinished, fun rest hrest => ?_⟩
        · rw [List.flatMap_cons, List.append_assoc, ← htext, cut_append]
        · rw [List.cons_append, pieces_cons, hcut rest hrest, Cut.followedBy,
            hpieces rest hrest, List.cons_append]

/-! ## Blanks and comments -/

/-- Pieces that contribute nothing. -/
def AllInert (ps : List Piece) : Prop := ∀ p ∈ ps, p.role = .blank ∨ p.role = .comment

/-- Gaps are cut into blanks of their own. -/
theorem pieces_blanks {cs : List Char} (hcs : ∀ c ∈ cs, isGap c) :
    ∃ qs, qs.flatMap Piece.text = cs ∧ AllInert qs ∧
      ∀ rest, RunEnds isGap rest → pieces (cs ++ rest) = qs ++ pieces rest := by
  cases cs with
  | nil => exact ⟨[], rfl, by simp [AllInert], fun _ _ => rfl⟩
  | cons c cs =>
    rw [List.forall_mem_cons] at hcs
    refine ⟨[⟨.blank, c :: cs⟩], by simp, by simp [AllInert], fun rest hrest => ?_⟩
    have hcut : cut c (cs ++ rest) = (⟨.blank, c :: cs⟩, rest) :=
      (if_pos hcs.1).trans (cutRun_exact _ hcs.2 hrest)
    rw [List.cons_append, pieces_cons, hcut, List.singleton_append]

/-- A comment up to the end of its line is one piece. -/
theorem pieces_comment {cs rest : List Char} (hcs : '\n' ∉ cs) (hrest : LineEnds rest) :
    pieces ('#' :: cs ++ rest) = ⟨.comment, '#' :: cs⟩ :: pieces rest := by
  have hends : RunEnds (· ≠ '\n') rest := by
    intro d hd
    simp [hrest d hd]
  have hcut : cut '#' (cs ++ rest) = (⟨.comment, '#' :: cs⟩, rest) :=
    cutRun_exact (c := '#') (fun _ => .comment) (all_ne hcs) hends
  rw [List.cons_append, pieces_cons, hcut]

/-- Blanks and a comment at the end of a line are pieces of their own. -/
theorem pieces_inert {cs : List Char} (hcs : Inert cs) :
    ∃ qs, qs.flatMap Piece.text = cs ∧ AllInert qs ∧
      ∀ rest, LineEnds rest → pieces (cs ++ rest) = qs ++ pieces rest := by
  cases hcs with
  | blanks hcs =>
    obtain ⟨qs, htext, hall, hqs⟩ := pieces_blanks hcs
    refine ⟨qs, htext, hall, fun rest hrest => hqs rest fun c hc => ?_⟩
    rw [hrest c hc]
    decide
  | @comment cs ds hcs hds =>
    obtain ⟨qs, htext, hall, hqs⟩ := pieces_blanks hcs
    refine ⟨qs ++ [⟨.comment, '#' :: ds⟩], ?_, ?_, fun rest hrest => ?_⟩
    · rw [List.flatMap_append, htext]
      simp
    · exact List.forall_mem_append.mpr ⟨hall, by simp⟩
    · have hends : RunEnds isGap ('#' :: ds ++ rest) := runEnds_cons (by decide)
      rw [List.append_assoc, hqs _ hends, pieces_comment hds hrest, List.append_assoc,
        List.singleton_append]

/-- A line break is a piece of its own. -/
theorem pieces_newline (rest : List Char) :
    pieces ('\n' :: rest) = ⟨.token .newline, ['\n']⟩ :: pieces rest := by
  rw [pieces_cons]
  rfl

/-! ## Open strings -/

/-- A string that is open at the end of a text is never closed. -/
theorem pieces_open {cs : List Char} (hcs : '"' ∉ cs) :
    pieces ('"' :: cs) = [⟨.unterminated, '"' :: cs⟩] := by
  have hnil : RunEnds (· ≠ '"') [] := by simp [RunEnds]
  obtain ⟨htake, hdrop⟩ := run_exact (all_ne hcs) hnil
  rw [List.append_nil] at htake hdrop
  have hcut : cut '"' cs = (⟨.unterminated, '"' :: cs⟩, []) := by
    change cutString cs = _
    rw [cutString, htake, hdrop]
  rw [pieces_cons, hcut, pieces_nil]

/-- A string that is open at the end of a line goes on over the line break. -/
theorem pieces_string {cs : List Char} (hcs : '"' ∉ cs) (rest : List Char) :
    ∃ p ps more, pieces ('"' :: cs ++ '\n' :: rest) = p :: ps ∧
      p.text = '"' :: cs ++ '\n' :: more ∧
      (p.role = .unterminated ∨ ∃ contents, p.role = .token (.string contents)) := by
  have htake : (cs ++ '\n' :: rest).takeWhile (· ≠ '"') =
      cs ++ '\n' :: rest.takeWhile (· ≠ '"') := by
    rw [List.takeWhile_append_of_pos (all_ne hcs), List.takeWhile_cons_of_pos (by decide)]
  rw [List.cons_append, pieces_cons]
  change ∃ p ps more, (cutString _).1 :: _ = p :: ps ∧ _
  unfold cutString
  rw [htake]
  split
  next => exact ⟨_, _, _, rfl, rfl, .inl rfl⟩
  next =>
    refine ⟨_, _, rest.takeWhile (· ≠ '"') ++ ['"'], rfl, ?_, .inr ⟨_, rfl⟩⟩
    simp only [List.cons_append, List.append_assoc]

end Offside
