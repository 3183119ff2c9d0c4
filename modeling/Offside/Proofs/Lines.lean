import Mathlib.Data.List.DropRight
import Offside.Proofs.Pieces
import Offside.Text.Blank
import Offside.Text.Rows

/-!
# Lines and trimmed texts

What the lines of a text are, and what trimming leaves of one, without the functions that compute
them. A text that ends with a line feed has its lines for itself: whatever stands behind it, they
are the first lines of the whole.
-/

namespace Offside.Text

variable {cs ds line before after part : List Char} {ls ls' : List (List Char)}

/-! ## Lines -/

/-- A text without a line feed is one row. -/
theorem rows_of_notMem (hne : line ≠ []) (hline : '\n' ∉ line) : rows line = [line] := by
  induction line with
  | nil => exact absurd rfl hne
  | cons c line ih =>
    obtain ⟨hc, hline⟩ := List.ne_and_not_mem_of_not_mem_cons hline
    rw [rows, if_neg (Ne.symm hc)]
    cases line with
    | nil => rfl
    | cons d line => rw [ih (List.cons_ne_nil d line) hline]

/-- The first row ends with the first line feed. -/
theorem rows_break (hline : '\n' ∉ line) (rest : List Char) :
    rows (line ++ '\n' :: rest) = (line ++ ['\n']) :: rows rest := by
  induction line with
  | nil => rfl
  | cons c line ih =>
    obtain ⟨hc, hline⟩ := List.ne_and_not_mem_of_not_mem_cons hline
    rw [List.cons_append, rows, if_neg (Ne.symm hc), ih hline]
    rfl

/-- A line without one carriage return at its end. -/
def dropReturn (line : List Char) : List Char :=
  if line.getLast? = some '\r' then line.dropLast else line

/-- A line that ends in a break loses the break and a carriage return before it. -/
theorem splitEnding_break (line : List Char) :
    (splitEnding (line ++ ['\n'])).1 = dropReturn line := by
  rcases List.eq_nil_or_concat line with rfl | ⟨front, c, rfl⟩
  · rfl
  · by_cases hc : c = '\r'
    · subst hc
      simp [splitEnding, dropReturn]
    · simp [splitEnding, dropReturn, hc]

/-- A line without a break is kept whole. -/
theorem splitEnding_of_notMem (hline : '\n' ∉ line) : (splitEnding line).1 = line := by
  unfold splitEnding
  split
  next body hbody =>
    have hmem : '\n' ∈ line := List.mem_reverse.mp (hbody ▸ List.mem_cons_self)
    exact absurd hmem hline
  next body hbody =>
    have hmem : '\n' ∈ line := List.mem_reverse.mp (hbody ▸ List.mem_cons_self)
    exact absurd hmem hline
  next => exact List.reverse_reverse line

/-- The lines of a text: it is cut behind every line feed, which is left out together with one
carriage return in front of it. What is behind the last line feed is a line if it is not empty. -/
inductive IsLines : List Char → List (List Char) → Prop
  | nil : IsLines [] []
  | last {line : List Char} : line ≠ [] → '\n' ∉ line → IsLines line [line]
  | feed {line rest : List Char} {ls : List (List Char)} : '\n' ∉ line → IsLines rest ls →
    IsLines (line ++ '\n' :: rest) (dropReturn line :: ls)

/-- The specification leaves one choice, the lines that are read. -/
theorem IsLines.eq_lines (h : IsLines cs ls) : ls = lines cs := by
  induction h with
  | nil => rfl
  | last hne hline =>
    rw [lines, rows_of_notMem hne hline, List.map_singleton, splitEnding_of_notMem hline]
  | @feed line rest ls hline _ ih =>
    rw [lines, rows_break hline, List.map_cons, splitEnding_break, ← lines, ih]

/-- The lines that are read meet the specification. -/
theorem isLines_lines (cs : List Char) : IsLines cs (lines cs) := by
  -- What is behind the first line feed is shorter, and not a part of the recursion of `rows`.
  induction hlength : cs.length using Nat.strongRecOn generalizing cs with
  | ind n ih =>
    by_cases hfeed : '\n' ∈ cs
    · obtain ⟨line, rest, rfl, hline⟩ := List.eq_append_cons_of_mem hfeed
      have hshorter : rest.length < n := by
        rw [← hlength, List.length_append, List.length_cons]
        omega
      have hlines := IsLines.feed hline (ih _ hshorter rest rfl)
      rwa [← hlines.eq_lines]
    · rcases eq_or_ne cs [] with rfl | hne
      · exact .nil
      · have hlines := IsLines.last hne hfeed
        rwa [← hlines.eq_lines]

/-- The computed lines are the lines. -/
theorem isLines_iff : IsLines cs ls ↔ ls = lines cs :=
  ⟨IsLines.eq_lines, fun h => h ▸ isLines_lines cs⟩

/-- The lines of a text that is empty or ends with a line feed come in front of the lines of what
follows. -/
theorem IsLines.append (h : IsLines cs ls) (hend : cs = [] ∨ cs.getLast? = some '\n')
    (h' : IsLines ds ls') : IsLines (cs ++ ds) (ls ++ ls') := by
  induction h with
  | nil => exact h'
  | last hne hline =>
    rcases hend with hnil | hfeed
    · exact absurd hnil hne
    · exact absurd (List.mem_of_getLast? hfeed) hline
  | @feed line rest ls hline hrest ih =>
    rw [List.append_assoc, List.cons_append, List.cons_append]
    refine .feed hline (ih ?_)
    cases rest with
    | nil => exact .inl rfl
    | cons c rest =>
      right
      simpa [List.getLast?_append, List.getLast?_cons_cons] using hend

/-! ## Trimming -/

/-- Blanks behind a text are trimmed off. -/
theorem trimEnd_append (h : ∀ c ∈ after, isBlank c) : trimEnd (cs ++ after) = trimEnd cs := by
  have hreverse : ∀ c ∈ after.reverse, isBlank c := fun c hc => h c (List.mem_reverse.mp hc)
  rw [trimEnd, List.reverse_append, List.dropWhile_append_of_pos hreverse, ← trimEnd]

/-- What is left of a text when the blanks at both ends are removed. -/
def IsTrimmed (cs part : List Char) : Prop :=
  ∃ before after, cs = before ++ (part ++ after) ∧ (∀ c ∈ before, isBlank c) ∧
    (∀ c ∈ after, isBlank c) ∧ RunEnds isBlank part ∧ ∀ c ∈ part.getLast?, isBlank c = false

/-- The specification leaves one choice, the trimmed text. -/
theorem IsTrimmed.eq_trim (h : IsTrimmed cs part) : part = trim cs := by
  obtain ⟨before, after, rfl, hbefore, hafter, hhead, hlast⟩ := h
  rw [trim, List.dropWhile_append_of_pos hbefore]
  cases part with
  | nil => rw [List.nil_append, List.dropWhile_eq_nil_iff.mpr hafter]; rfl
  | cons c part =>
    have hstop : RunEnds isBlank (c :: part ++ after) := runEnds_cons (hhead c rfl)
    have hends : (c :: part).rdropWhile isBlank = c :: part :=
      List.rdropWhile_eq_self_iff.mpr fun hne => by
        simpa using hlast _ (List.getLast?_eq_some_getLast hne)
    calc c :: part = trimEnd (c :: part) := hends.symm
      _ = trimEnd (c :: part ++ after) := (trimEnd_append hafter).symm
      _ = trimEnd ((c :: part ++ after).dropWhile isBlank) :=
        congrArg trimEnd (run_exact (List.forall_mem_nil _) hstop).2.symm

/-- The trimmed text meets the specification. -/
theorem isTrimmed_trim (cs : List Char) : IsTrimmed cs (trim cs) := by
  let inner := cs.dropWhile isBlank
  have hinner : trim cs ++ inner.rtakeWhile isBlank = inner := List.rdropWhile_append_rtakeWhile ..
  refine ⟨cs.takeWhile isBlank, inner.rtakeWhile isBlank, ?_, fun c hc => of_mem_takeWhile hc,
    fun c hc => List.mem_rtakeWhile_imp hc, fun c hc => ?_, fun c hc => ?_⟩
  · rw [hinner]
    exact List.takeWhile_append_dropWhile.symm
  · have hhead : c ∈ inner.head? := by
      rw [Option.mem_def] at hc ⊢
      rw [← hinner, List.head?_append, hc, Option.some_or]
    exact runEnds_dropWhile isBlank cs c hhead
  · obtain ⟨hne, rfl⟩ := List.mem_getLast?_eq_getLast hc
    exact Bool.eq_false_iff.mpr (List.rdropWhile_last_not isBlank inner hne)

end Offside.Text
