import Mathlib.Data.List.Basic
import Offside.Proofs.Placement
import Offside.Report
import Offside.Text.Rows

/-!
# The places that reports name

A diagnostic tells the line of the blamed text, and its report names a row and a column. The row and
the column are found by taking the offset of the text, which counts bytes, as a number of
characters, and by splitting the source into rows as it is displayed. So the report names the line
and the column of the blamed text exactly if in front of it all characters take one byte and all
displayed rows end in a line feed, and if the text does not reach too far behind the source when its
bytes are taken for characters.
-/

namespace Offside

namespace Text

/-! ## Lines -/

/-- The characters behind the last line break of a text. -/
def lastLine (cs : List Char) : List Char := (cs.reverse.takeWhile (· ≠ '\n')).reverse

/-- Behind a line break the last line starts anew. -/
theorem lastLine_append {cs ds : List Char} (hcs : cs = [] ∨ cs.getLast? = some '\n')
    (hds : '\n' ∉ ds) : lastLine (cs ++ ds) = ds := by
  have hinside : ∀ c ∈ ds.reverse, decide (c ≠ '\n') = true := by
    intro c hc
    exact decide_eq_true fun heq => hds (heq ▸ List.mem_reverse.mp hc)
  rw [lastLine, List.reverse_append, List.takeWhile_append_of_pos hinside]
  have hend : cs.reverse.takeWhile (· ≠ '\n') = [] := by
    rcases hcs with rfl | hlast
    · rfl
    · obtain ⟨before, rfl⟩ := List.getLast?_eq_some_iff.mp hlast
      simp
  rw [hend, List.append_nil, List.reverse_reverse]

/-- A text has no more characters than bytes. -/
theorem length_le_byteLength (cs : List Char) : cs.length ≤ byteLength cs := by
  induction cs with
  | nil => exact Nat.le_refl 0
  | cons c cs ih =>
    have hpos := c.utf8Size_pos
    rw [List.length_cons, byteLength_cons]
    omega

/-- Bytes count characters exactly if every character takes one byte. -/
theorem byteLength_eq_length_iff {cs : List Char} :
    byteLength cs = cs.length ↔ ∀ c ∈ cs, c.utf8Size = 1 := by
  induction cs with
  | nil => simp
  | cons c cs ih =>
    have hpos := c.utf8Size_pos
    have hle := length_le_byteLength cs
    rw [List.forall_mem_cons, ← ih, List.length_cons, byteLength_cons]
    omega

/-! ## Displayed rows -/

/-- No displayed row is empty. -/
theorem ne_nil_of_mem_displayRows (cs : List Char) : ∀ row ∈ displayRows cs, row ≠ [] := by
  fun_induction displayRows cs with
  | case1 => simp
  | case2 cs ih => simpa using ih
  | case3 c cs _ _ ih => simpa using ih
  | case4 c cs _ _ _ _ => simp
  | case5 c cs _ _ row others h ih =>
    rw [h, List.forall_mem_cons] at ih
    exact List.forall_mem_cons.mpr ⟨List.cons_ne_nil c row, ih.2⟩

/-- A displayed row goes on up to a line feed at the latest. -/
theorem not_mem_dropLast_of_mem_displayRows (cs : List Char) :
    ∀ row ∈ displayRows cs, '\n' ∉ row.dropLast := by
  fun_induction displayRows cs with
  | case1 => simp
  | case2 cs ih => simpa using ih
  | case3 c cs _ _ ih => simpa using ih
  | case4 c cs _ _ _ _ => simp
  | case5 c cs _ hbreak row others h ih =>
    have hrow := ne_nil_of_mem_displayRows cs row (h ▸ List.mem_cons_self)
    have hc : '\n' ≠ c := by
      rintro rfl
      exact hbreak rfl
    rw [h, List.forall_mem_cons] at ih
    refine List.forall_mem_cons.mpr ⟨?_, ih.2⟩
    rw [List.dropLast_cons_of_ne_nil hrow, List.mem_cons, not_or]
    exact ⟨hc, ih.1⟩

/-- A row holds a line feed only if it ends in one. -/
theorem lineBreaks_row {row : List Char} (hne : row ≠ []) (hrow : '\n' ∉ row.dropLast) :
    lineBreaks row = if row.getLast? = some '\n' then 1 else 0 := by
  rcases List.eq_nil_or_concat row with rfl | ⟨inside, c, rfl⟩
  · exact absurd rfl hne
  · rw [List.concat_eq_append] at hrow ⊢
    rw [List.dropLast_concat] at hrow
    rw [lineBreaks_append, lineBreaks, List.count_eq_zero.mpr hrow, Nat.zero_add,
      List.getLast?_concat, lineBreaks, List.count_singleton]
    simp

/-- So there are as many line feeds as rows that end in one. -/
theorem lineBreaks_flatten {rs : List (List Char)} (hne : ∀ row ∈ rs, row ≠ [])
    (hrs : ∀ row ∈ rs, '\n' ∉ row.dropLast) :
    lineBreaks rs.flatten = rs.countP (·.getLast? = some '\n') := by
  induction rs with
  | nil => rfl
  | cons row rs ih =>
    rw [List.forall_mem_cons] at hne hrs
    rw [List.flatten_cons, lineBreaks_append, ih hne.2 hrs.2, lineBreaks_row hne.1 hrs.1,
      List.countP_cons, Nat.add_comm]
    simp

/-- The row in which a character lies. -/
theorem exists_split_row {rs : List (List Char)} {i : Nat} (hi : i < rs.flatten.length) :
    ∃ before row after m, rs = before ++ row :: after ∧ i = before.flatten.length + m ∧
      m < row.length := by
  induction rs generalizing i with
  | nil => cases hi
  | cons row rs ih =>
    by_cases hrow : i < row.length
    · exact ⟨[], row, rs, i, rfl, (Nat.zero_add i).symm, hrow⟩
    · rw [List.flatten_cons, List.length_append] at hi
      obtain ⟨before, found, after, m, rfl, hm, hlt⟩ := ih (i := i - row.length) (by omega)
      refine ⟨row :: before, found, after, m, rfl, ?_, hlt⟩
      rw [List.flatten_cons, List.length_append]
      omega

/-! ## Places -/

/-- The place of a character is told by the rows in front of its own. -/
theorem go_of_row (first : Nat) (before : List (List Char)) {row : List Char}
    (after : List (List Char)) {m : Nat} (hm : m < row.length) :
    place?.go first (before.flatten.length + m) (before ++ row :: after) =
      some ⟨first + before.length, m + 1⟩ := by
  induction before generalizing first with
  | nil =>
    rw [List.flatten_nil, List.length_nil, Nat.zero_add, List.nil_append]
    cases after with
    | nil => exact if_pos (Nat.le_of_lt hm)
    | cons next others => exact if_pos hm
  | cons current before ih =>
    obtain ⟨next, others, hrest⟩ : ∃ next others, before ++ row :: after = next :: others :=
      List.exists_cons_of_ne_nil (by simp)
    have hrest' := ih (first + 1)
    rw [hrest] at hrest'
    rw [List.flatten_cons, List.length_append, List.cons_append, hrest, place?.go,
      if_neg (by omega), Nat.add_assoc, Nat.add_sub_cancel_left, hrest', List.length_cons,
      Nat.add_assoc, Nat.add_comm 1]

/-- A place is in the first row or below it. -/
theorem le_row {first i : Nat} {rs : List (List Char)} {p : Place}
    (h : place?.go first i rs = some p) : first ≤ p.row := by
  fun_induction place?.go first i rs with
  | case1 => cases h; exact Nat.le_refl _
  | case2 => cases h
  | case3 => cases h; exact Nat.le_refl _
  | case4 => cases h
  | case5 => cases h; exact Nat.le_refl _
  | case6 first i current next others _ ih => exact Nat.le_of_succ_le (ih h)

/-- Of two characters the later one has the later place. -/
theorem go_lt {first i j : Nat} {rs : List (List Char)} {p q : Place} (hij : i < j)
    (hp : place?.go first i rs = some p) (hq : place?.go first j rs = some q) :
    p.row < q.row ∨ p.row = q.row ∧ p.column < q.column := by
  fun_induction place?.go first i rs generalizing j with
  | case1 =>
    rw [place?.go, if_neg (by omega)] at hq
    cases hq
  | case2 => cases hp
  | case3 first i last hi =>
    rw [place?.go] at hq
    split at hq
    · cases hp
      cases hq
      exact .inr ⟨rfl, Nat.succ_lt_succ hij⟩
    · cases hq
  | case4 => cases hp
  | case5 first i current next others hi =>
    cases hp
    rw [place?.go] at hq
    split at hq
    · cases hq
      exact .inr ⟨rfl, Nat.succ_lt_succ hij⟩
    · exact .inl (le_row hq)
  | case6 first i current next others hi ih =>
    rw [place?.go, if_neg (by omega)] at hq
    exact ih (by omega) hp hq

/-- The rows that are displayed in front of a place in a text end in a line feed. -/
def FeedsOnly (front rest : List Char) : Prop :=
  ∀ before after, displayRows (front ++ rest) = before ++ after →
    before.flatten.length ≤ front.length → ∀ row ∈ before, row.getLast? = some '\n'

/-- The rows in front of the one in which a place lies are the rows in front of the place. -/
theorem feedsOnly_iff {front rest row : List Char} {before after : List (List Char)} {m : Nat}
    (hrows : displayRows (front ++ rest) = before ++ row :: after)
    (hfront : front.length = before.flatten.length + m) (hm : m < row.length) :
    FeedsOnly front rest ↔ ∀ r ∈ before, r.getLast? = some '\n' := by
  constructor
  · exact fun h => h before (row :: after) hrows (by omega)
  · intro h before' after' hsplit hle r hr
    rcases List.append_eq_append_iff.mp (hsplit.symm.trans hrows) with
      ⟨more, rfl, -⟩ | ⟨more, rfl, hmore⟩
    · exact h r (List.mem_append_left more hr)
    · cases more with
      | nil => exact h r (by simpa using hr)
      | cons current more =>
        -- The row of the place itself does not end in front of it.
        obtain ⟨rfl, -⟩ := List.cons.inj hmore
        rw [List.flatten_append, List.flatten_cons, List.length_append, List.length_append] at hle
        omega

/-- A place in a text lies behind some rows, and behind the given characters of the next one. -/
structure LiesBehind (front rest : List Char) (before : List (List Char)) (inside : List Char) :
    Prop where
  front_eq : front = before.flatten ++ inside
  ne_nil : ∀ r ∈ before, r ≠ []
  inner : ∀ r ∈ before, '\n' ∉ r.dropLast
  no_feed : '\n' ∉ inside
  place : place? (front ++ rest) front.length = some ⟨1 + before.length, inside.length + 1⟩
  feedsOnly : FeedsOnly front rest ↔ ∀ r ∈ before, r.getLast? = some '\n'

/-- Every offset in a text lies behind some rows, inside another. -/
theorem exists_liesBehind (front : List Char) {rest : List Char} (hrest : rest ≠ []) :
    ∃ before inside, LiesBehind front rest before inside := by
  have hflatten : (displayRows (front ++ rest)).flatten = front ++ rest := flatten_displayRows _
  have hlt : front.length < (displayRows (front ++ rest)).flatten.length := by
    have hpos := List.length_pos_iff.mpr hrest
    rw [hflatten, List.length_append]
    omega
  obtain ⟨before, row, after, m, hrows, hfront, hm⟩ := exists_split_row hlt
  have hinner : ∀ r ∈ before ++ row :: after, '\n' ∉ r.dropLast := fun r hr =>
    not_mem_dropLast_of_mem_displayRows _ r (hrows ▸ hr)
  have htake : (row.take m).length = m := by
    rw [List.length_take]
    omega
  refine ⟨before, row.take m, ?_, ?_, fun r hr => hinner r (List.mem_append_left _ hr), ?_, ?_,
    feedsOnly_iff hrows hfront hm⟩
  · have hwhole :
        front ++ rest = (before.flatten ++ row.take m) ++ (row.drop m ++ after.flatten) := by
      rw [← hflatten, hrows, List.flatten_append, List.flatten_cons, List.append_assoc,
        ← List.append_assoc (row.take m), List.take_append_drop]
    refine (List.append_inj hwhole ?_).1
    rw [List.length_append, htake, hfront]
  · exact fun r hr => ne_nil_of_mem_displayRows _ r (hrows ▸ List.mem_append_left _ hr)
  · intro hmem
    have hle : min m (row.length - 1) = m := by omega
    rw [← hle, ← List.take_take, ← List.dropLast_eq_take] at hmem
    exact hinner row (by simp) (List.mem_of_mem_take hmem)
  · have hgo := go_of_row 1 before after hm
    rwa [← hrows, ← hfront, ← htake] at hgo

section

variable {front rest inside : List Char} {before : List (List Char)}

/-- The line feeds in front are the ones that end rows. -/
theorem LiesBehind.lineBreaks_eq (h : LiesBehind front rest before inside) :
    lineBreaks front = before.countP (·.getLast? = some '\n') := by
  rw [h.front_eq, lineBreaks_append, lineBreaks_flatten h.ne_nil h.inner, lineBreaks,
    List.count_eq_zero.mpr h.no_feed, Nat.add_zero]

/-- If the rows in front are lines, there are as many of them as line breaks. -/
theorem LiesBehind.lineBreaks_of_feeds (h : LiesBehind front rest before inside)
    (hfeeds : ∀ r ∈ before, r.getLast? = some '\n') : lineBreaks front = before.length := by
  rw [h.lineBreaks_eq]
  exact List.countP_eq_length.mpr fun r hr => decide_eq_true (hfeeds r hr)

/-- If some row in front is no line, there are fewer line breaks than rows. -/
theorem LiesBehind.lineBreaks_lt (h : LiesBehind front rest before inside)
    (hfeeds : ¬∀ r ∈ before, r.getLast? = some '\n') : lineBreaks front < before.length := by
  rw [h.lineBreaks_eq]
  refine Nat.lt_of_le_of_ne List.countP_le_length fun heq => hfeeds fun r hr => ?_
  exact of_decide_eq_true (List.countP_eq_length.mp heq r hr)

/-- If only line feeds end rows, the last row is the last line. -/
theorem LiesBehind.lastLine_of_feeds (h : LiesBehind front rest before inside)
    (hfeeds : ∀ r ∈ before, r.getLast? = some '\n') : lastLine front = inside := by
  rw [h.front_eq]
  refine lastLine_append ?_ h.no_feed
  rcases List.eq_nil_or_concat before with rfl | ⟨others, last, rfl⟩
  · exact .inl rfl
  · have hmem : last ∈ others.concat last := by simp
    have hlast := hfeeds last hmem
    refine .inr ?_
    rw [List.concat_eq_append, List.flatten_append, List.flatten_singleton,
      List.getLast?_append_of_ne_nil _ (h.ne_nil last hmem), hlast]

/-- A number that is at least that of the characters in front leads to the line and the column of
what follows them exactly if it is that number and the rows in front are the lines in front. -/
theorem place?_eq_iff (hrest : rest ≠ []) {index : Nat} (hindex : front.length ≤ index) :
    place? (front ++ rest) index = some ⟨1 + lineBreaks front, 1 + (lastLine front).length⟩ ↔
      index = front.length ∧ FeedsOnly front rest := by
  obtain ⟨before, inside, h⟩ := exists_liesBehind front hrest
  rw [h.feedsOnly]
  by_cases hfeeds : ∀ r ∈ before, r.getLast? = some '\n'
  · rw [h.lineBreaks_of_feeds hfeeds, h.lastLine_of_feeds hfeeds, Nat.add_comm 1 inside.length]
    refine ⟨fun hfound => ⟨?_, hfeeds⟩, fun heq => heq.1 ▸ h.place⟩
    by_contra hother
    have hlater := go_lt (Nat.lt_of_le_of_ne hindex (Ne.symm hother)) h.place hfound
    simp at hlater
  · have hcount := h.lineBreaks_lt hfeeds
    refine iff_of_false (fun hfound => ?_) fun heq => hfeeds heq.2
    rcases Nat.eq_or_lt_of_le hindex with rfl | hlater
    · have hrow := congrArg Place.row (Option.some.inj (h.place.symm.trans hfound))
      simp only at hrow
      omega
    · rcases go_lt hlater h.place hfound with hrow | ⟨hrow, -⟩ <;> simp only at hrow <;> omega

end

/-- A place as a report names it. -/
def Place.named (name : String) (p : Place) : String :=
  name ++ ":" ++ toString p.row ++ ":" ++ toString p.column

/-- A location names one row and column only. -/
theorem Place.named_injective {name : String} {p q : Place} (h : p.named name = q.named name) :
    p = q := by
  have hdigits (n : Nat) : (toString n).toList = Nat.toDigits 10 n := by
    rw [Nat.toString_eq_ofList_toDigits, String.toList_ofList]
  have hcolon (n : Nat) : ':' ∉ Nat.toDigits 10 n := by
    intro hmem
    exact absurd (Nat.isDigit_of_mem_toDigits (by decide) (by decide) hmem) (by decide)
  have hnumber {m n : Nat} (h : Nat.toDigits 10 m = Nat.toDigits 10 n) : m = n := by
    rw [← Nat.ofDigitChars_ten_toDigits (n := m), h, Nat.ofDigitChars_ten_toDigits]
  have hchars := congrArg String.toList h
  simp only [Place.named, String.toList_append, List.append_assoc, List.append_cancel_left_eq,
    hdigits] at hchars
  obtain ⟨hrow, -, hcolumn⟩ :=
    (List.append_cons_inj_of_notMem (hcolon p.row) (hcolon p.column)).mp hchars
  obtain ⟨row, column⟩ := p
  obtain ⟨row', column'⟩ := q
  obtain rfl : row = row' := hnumber hrow
  obtain rfl : column = column' := hnumber hcolumn
  rfl

end Text

/-! ## Reports -/

/-- A span inside a source is not cut down. -/
theorem Span.clampTo_of_le {s : Span} {length : Nat} (h : s.start ≤ s.stop) (h' : s.stop ≤ length) :
    s.clampTo length = s := by
  have hstart : min s.start length = s.start := Nat.min_eq_left (by omega)
  have hstop : min s.stop length = s.stop := Nat.min_eq_left h'
  simp only [Span.clampTo, hstart, hstop, Nat.max_eq_right h]

/-- The report on a diagnostic that points into a source names the line and the column of the text
at its span exactly if that text is found by taking bytes for characters and displayed rows for
lines, and if the span does not reach too far behind the end then. -/
theorem Diagnostic.PointsInto.location_iff {source : String} {d : Diagnostic}
    (h : d.PointsInto source) (hstart : d.span.start < source.utf8ByteSize) :
    ∃ front rest, source.toList = front ++ rest ∧ Text.byteLength front = d.span.start ∧
      d.line = 1 + Text.lineBreaks front ∧
      ∀ name, (d.report name source).mark.map Mark.location =
          some (Text.Place.named name ⟨d.line, 1 + (Text.lastLine front).length⟩) ↔
        (∀ c ∈ front, c.utf8Size = 1) ∧ Text.FeedsOnly front rest ∧
          d.span.last ≤ source.length := by
  obtain ⟨inside, behind, ⟨front, hsource, hfront, -, hline⟩, -⟩ := h.place
  refine ⟨front, inside ++ behind, hsource, hfront, hline, fun name => ?_⟩
  have hrest : inside ++ behind ≠ [] := by
    intro hnil
    rw [← Text.byteLength_toList, hsource, hnil, List.append_nil, hfront] at hstart
    exact Nat.lt_irrefl _ hstart
  have hplace : d.place? source =
      if d.span.last ≤ source.length then Text.place? (front ++ (inside ++ behind)) d.span.start
      else none := by
    rw [Diagnostic.place?, Span.clampTo_of_le h.bounds.1 h.bounds.2, Span.place?, hsource,
      ← hsource, String.length_toList]
  have hmark : (d.report name source).mark.map Mark.location =
      (d.place? source).map (Text.Place.named name) := by
    rw [Diagnostic.report, Option.map_map]
    rfl
  have hnamed (p : Text.Place) :
      (d.place? source).map (Text.Place.named name) = some (p.named name) ↔
        d.place? source = some p := by
    rw [← Option.map_some]
    exact ⟨fun heq => Option.map_injective (fun _ _ => Text.Place.named_injective) heq,
      fun heq => by rw [heq]⟩
  have hindex := Text.length_le_byteLength front
  rw [hfront] at hindex
  rw [hmark, hnamed, hplace, hline, ← Text.byteLength_eq_length_iff, hfront]
  by_cases hlast : d.span.last ≤ source.length
  · rw [if_pos hlast, Text.place?_eq_iff hrest hindex]
    simp [hlast]
  · simp [hlast]

/-- What is reported about a source that is run on its own was found without running it, or stopped
its program. -/
theorem mem_diagnostics_of_runAlone {fuel depthLimit : Nat} {source : String} {outcome : Outcome}
    {text : String} (h : runAlone fuel depthLimit source = some (outcome, text)) {d : Diagnostic}
    (hd : d ∈ outcome.diagnostics) :
    d ∈ (check source).diagnostics ∨ ∃ e m, d = e.diagnostic ∧
      runProgram fuel (check source).program (freshStart depthLimit) = .error (.failed e) m := by
  rw [runAlone] at h
  obtain ⟨⟨found, session⟩, hrun, hfound⟩ := Option.bind_eq_some_iff.mp h
  cases hfound
  rw [Session.run_eq] at hrun
  split at hrun
  next =>
    change Session.conclude (runProgram fuel (check source).program (freshStart depthLimit)) =
      some (outcome, session) at hrun
    generalize hend : runProgram fuel (check source).program (freshStart depthLimit) = r at hrun
    cases r with
    | ok flow m =>
      cases hrun
      cases hd
    | error halt m =>
      cases halt with
      | exhausted => cases hrun
      | failed e =>
        cases hrun
        exact .inr ⟨e, m, List.mem_singleton.mp hd, rfl⟩
  next =>
    cases hrun
    exact .inl hd

/-- The report on a diagnostic of a source that is run on its own names the line that the diagnostic
tells, and the column at which the blamed text starts on it, exactly if every character in front of
that text takes one byte and every displayed row in front of it ends in a line feed, and if the text
does not reach too far behind the end when its bytes are taken for characters. -/
theorem location_of_report_iff {fuel depthLimit : Nat} {source : String} {outcome : Outcome}
    {text : String} (h : runAlone fuel depthLimit source = some (outcome, text)) :
    ∀ d ∈ outcome.diagnostics, d.span.start < source.utf8ByteSize →
      ∃ front rest, source.toList = front ++ rest ∧ Text.byteLength front = d.span.start ∧
        d.line = 1 + Text.lineBreaks front ∧
        ∀ name, (d.report name source).mark.map Mark.location =
            some (Text.Place.named name ⟨d.line, 1 + (Text.lastLine front).length⟩) ↔
          (∀ c ∈ front, c.utf8Size = 1) ∧ Text.FeedsOnly front rest ∧
            d.span.last ≤ source.length := by
  intro d hd hstart
  have hpoints : d.PointsInto source := by
    rcases mem_diagnostics_of_runAlone h hd with hcheck | ⟨e, m, rfl, hend⟩
    · exact pointsInto_check hcheck
    · exact Diagnostic.pointsInto_atToken (token_mem_of_failed hend) (by simp) _
  exact hpoints.location_iff hstart

/-- What a short source without lexical and syntax errors reports when it is run on its own. -/
theorem exists_runAlone {fuel depthLimit n : Nat} {source : String} {outcome : Outcome}
    (hlength : source.toList.length ≤ n) (hclean : (checkUpTo n source).diagnostics = [])
    (h : (Session.conclude (runProgram fuel (checkUpTo n source).program
      (freshStart depthLimit))).map Prod.fst = some outcome) :
    ∃ text, runAlone fuel depthLimit source = some (outcome, text) := by
  obtain ⟨⟨found, session⟩, hend, rfl⟩ := Option.map_eq_some_iff.mp h
  have hrun : (Session.new depthLimit {}).run fuel source = some (found, session) :=
    (Session.run_of_checkUpTo hlength hclean fuel _).trans hend
  refine ⟨session.textFrom 0, ?_⟩
  simp only [runAlone, hrun]
  rfl

/-- A source with a wide character behind an operator that fails. -/
def wideBehind : String := "x = 1\nx - \"é\""

/-- A wide character behind the blamed token leaves its location right. -/
theorem location_of_report_iff_wideBehind :
    ∃ outcome text, runAlone 9 10 wideBehind = some (outcome, text) ∧
      ∃ d ∈ outcome.diagnostics, d.span.start < wideBehind.utf8ByteSize ∧
        (d.report "test.py" wideBehind).mark.map Mark.location = some "test.py:2:3" ∧
        ∃ front rest, wideBehind.toList = front ++ rest ∧ Text.byteLength front = d.span.start ∧
          d.line = 1 + Text.lineBreaks front ∧
          ∀ name, (d.report name wideBehind).mark.map Mark.location =
              some (Text.Place.named name ⟨d.line, 1 + (Text.lastLine front).length⟩) ↔
            (∀ c ∈ front, c.utf8Size = 1) ∧ Text.FeedsOnly front rest ∧
              d.span.last ≤ wideBehind.length := by
  let d : Diagnostic := ⟨.runtime, 2, " at '-'", "Operands must be numbers.", ⟨8, 9⟩⟩
  obtain ⟨text, hrun⟩ : ∃ text, runAlone 9 10 wideBehind = some (⟨.runtimeError, [d]⟩, text) :=
    exists_runAlone (n := 30) (by decide +kernel) (by decide +kernel) (by decide +kernel)
  have hd : d ∈ [d] := List.mem_singleton_self d
  have hstart : d.span.start < wideBehind.utf8ByteSize := by decide +kernel
  exact ⟨_, text, hrun, d, hd, hstart, by decide +kernel, location_of_report_iff hrun d hd hstart⟩

/-- A source with a wide character in front of an operator that fails. -/
def wideInFront : String := "print(\"é\" - 1)\n"

/-- Behind a wide character the report names another column than that of the blamed text, also where
the displayed rows are the lines. -/
theorem location_of_report_displaced :
    ∃ outcome text, runAlone 9 10 wideInFront = some (outcome, text) ∧
      ∃ d ∈ outcome.diagnostics, d.span.start < wideInFront.utf8ByteSize ∧
        ∃ front rest, wideInFront.toList = front ++ rest ∧ Text.byteLength front = d.span.start ∧
          Text.displayRows wideInFront.toList = Text.rows wideInFront.toList ∧
          Text.Place.named "test.py" ⟨d.line, 1 + (Text.lastLine front).length⟩ = "test.py:1:11" ∧
          (d.report "test.py" wideInFront).mark.map Mark.location = some "test.py:1:12" := by
  let d : Diagnostic := ⟨.runtime, 1, " at '-'", "Operands must be numbers.", ⟨11, 12⟩⟩
  obtain ⟨text, hrun⟩ : ∃ text, runAlone 9 10 wideInFront = some (⟨.runtimeError, [d]⟩, text) :=
    exists_runAlone (n := 30) (by decide +kernel) (by decide +kernel) (by decide +kernel)
  have hd : d ∈ [d] := List.mem_singleton_self d
  exact ⟨_, text, hrun, d, hd, by decide +kernel, "print(\"é\" ".toList, "- 1)\n".toList,
    by decide +kernel, by decide +kernel, by decide +kernel, by decide +kernel, by decide +kernel⟩

end Offside
