import Offside.Proofs.Pieces

/-!
# Outlines

A tree is dumped as an outline: lists of words, quoted texts and further lists, one to a line, with
the lists of an inner level deeper in between. An outline can be read in one way only. A word ends
where a character stands that is in no word, a quoted text at the next quote, and a list at the
parenthesis that closes it, however much of this a quoted text pretends to be.
-/

namespace Offside

/-! ## Forms -/

/-- A word, a text in quotes, or a list in parentheses. -/
inductive Form where
  | word (letters : String)
  | quoted (contents : String)
  | list (items : List Form)

namespace Form

/-- The characters that end a word. -/
def separators : List Char := [' ', '\n', '(', ')', '"']

/-- Whether a character can stand in a word. -/
def isPlain (c : Char) : Bool := !separators.contains c

/-- What holds for no character that ends a word holds inside words only. -/
theorem isPlain_of {p : Char → Bool} (hp : separators.any p = false) {c : Char} (hc : p c) :
    isPlain c := by
  rw [List.any_eq_false] at hp
  rw [isPlain, Bool.not_eq_true', List.contains_eq_mem, decide_eq_false_iff_not]
  exact fun hmem => hp c hmem hc

mutual

/-- The text of a form. -/
def text : Form → List Char
  | .word letters => letters.toList
  | .quoted contents => '"' :: (contents.toList ++ ['"'])
  | .list items => '(' :: (textEach items ++ [')'])

/-- The texts of several forms with a space between any two. -/
def textEach : List Form → List Char
  | [] => []
  | f :: fs => f.text ++ textMore fs

/-- The texts of several forms, each with a space in front. -/
def textMore : List Form → List Char
  | [] => []
  | f :: fs => ' ' :: (f.text ++ textMore fs)

end

mutual

/-- A form whose words have a letter and nothing that ends a word, and whose quoted texts have no
quote inside. -/
def WellFormed : Form → Prop
  | .word letters => letters.toList ≠ [] ∧ ∀ c ∈ letters.toList, isPlain c
  | .quoted contents => '"' ∉ contents.toList
  | .list items => EachWellFormed items

/-- Well-formed forms. -/
def EachWellFormed : List Form → Prop
  | [] => True
  | f :: fs => f.WellFormed ∧ EachWellFormed fs

end

/-- What stands behind the last item of a list. -/
def Closes (rest : List Char) : Prop := ∃ c cs, rest = c :: cs ∧ (c = ')' ∨ c = '\n')

variable {f g : Form} {fs gs : List Form} {rest rest' : List Char}

/-- A plain word ends where a list closes. -/
theorem Closes.runEnds (h : Closes rest) : RunEnds isPlain rest := by
  obtain ⟨c, cs, rfl, rfl | rfl⟩ := h <;> exact runEnds_cons (by decide)

/-- A plain word ends in front of further forms. -/
theorem runEnds_textMore (h : Closes rest) (fs : List Form) :
    RunEnds isPlain (textMore fs ++ rest) := by
  cases fs with
  | nil => exact h.runEnds
  | cons f fs => exact runEnds_cons (by decide)

/-- A form does not begin like what stands behind the last item of a list. -/
theorem not_closes_text (h : f.WellFormed) (rest : List Char) : ¬Closes (f.text ++ rest) := by
  rintro ⟨c, cs, htext, hc⟩
  cases f with
  | word letters =>
    obtain ⟨d, ds, hletters⟩ := List.exists_cons_of_ne_nil h.1
    have hplain := h.2 d (by simp [hletters])
    rw [text, hletters] at htext
    obtain ⟨rfl, -⟩ := List.cons.inj htext
    rcases hc with rfl | rfl <;> cases hplain
  | quoted contents =>
    obtain ⟨rfl, -⟩ := List.cons.inj htext
    rcases hc with hc | hc <;> cases hc
  | list items =>
    obtain ⟨rfl, -⟩ := List.cons.inj htext
    rcases hc with hc | hc <;> cases hc

/-- A plain word is told apart from what follows it. -/
theorem word_append_inj {w w' : String} (hw : ∀ c ∈ w.toList, isPlain c)
    (hw' : ∀ c ∈ w'.toList, isPlain c) (hrest : RunEnds isPlain rest)
    (hrest' : RunEnds isPlain rest') (h : w.toList ++ rest = w'.toList ++ rest') :
    w = w' ∧ rest = rest' := by
  obtain ⟨htake, hdrop⟩ := run_exact hw hrest
  obtain ⟨htake', hdrop'⟩ := run_exact hw' hrest'
  rw [h, htake'] at htake
  rw [h, hdrop'] at hdrop
  exact ⟨String.toList_inj.mp htake.symm, hdrop.symm⟩

/-- Quoted text is told apart from what follows it. -/
theorem quoted_append_inj {w w' : String} (hw : '"' ∉ w.toList) (hw' : '"' ∉ w'.toList)
    (h : w.toList ++ '"' :: rest = w'.toList ++ '"' :: rest') : w = w' ∧ rest = rest' := by
  have hinside {cs : List Char} (hcs : '"' ∉ cs) : ∀ c ∈ cs, decide (c ≠ '"') := fun c hc =>
    decide_eq_true fun heq => hcs (heq ▸ hc)
  have hquote (rest : List Char) : RunEnds (· ≠ '"') ('"' :: rest) := runEnds_cons (by decide)
  obtain ⟨htake, hdrop⟩ := run_exact (hinside hw) (hquote rest)
  obtain ⟨htake', hdrop'⟩ := run_exact (hinside hw') (hquote rest')
  rw [h, htake'] at htake
  rw [h, hdrop'] at hdrop
  exact ⟨String.toList_inj.mp htake.symm, (List.cons.inj hdrop).2.symm⟩

/-- The text of a word begins like the text of words only. -/
theorem text_ne_word {c : Char} {cs : List Char} {w : String} (hw : (word w).WellFormed)
    (hc : isPlain c = false) : c :: cs ≠ w.toList ++ rest := by
  obtain ⟨d, ds, hletters⟩ := List.exists_cons_of_ne_nil hw.1
  have hplain := hw.2 d (by simp [hletters])
  rw [hletters]
  rintro heq
  obtain ⟨rfl, -⟩ := List.cons.inj heq
  rw [hc] at hplain
  cases hplain

mutual

/-- Where the text of a form ends, and which form it is, can be told from the text. -/
theorem text_append_inj : ∀ {f g : Form} {rest rest' : List Char}, f.WellFormed → g.WellFormed →
    RunEnds isPlain rest → RunEnds isPlain rest' → f.text ++ rest = g.text ++ rest' →
    f = g ∧ rest = rest'
  | .word w, .word w', _, _, hf, hg, hrest, hrest', h => by
    obtain ⟨rfl, rfl⟩ := word_append_inj hf.2 hg.2 hrest hrest' h
    exact ⟨rfl, rfl⟩
  | .quoted w, .quoted w', rest, rest', hf, hg, _, _, h => by
    have htail : w.toList ++ '"' :: rest = w'.toList ++ '"' :: rest' := by simpa [text] using h
    obtain ⟨rfl, rfl⟩ := quoted_append_inj hf hg htail
    exact ⟨rfl, rfl⟩
  | .list fs, .list gs, rest, rest', hf, hg, _, _, h => by
    have htail : textEach fs ++ ')' :: rest = textEach gs ++ ')' :: rest' := by
      simpa [text] using h
    obtain ⟨rfl, hrest⟩ := textEach_append_inj hf hg ⟨_, _, rfl, .inl rfl⟩ ⟨_, _, rfl, .inl rfl⟩
      htail
    exact ⟨rfl, (List.cons.inj hrest).2⟩
  | .word _, .quoted _, _, _, hf, _, _, _, h | .word _, .list _, _, _, hf, _, _, _, h =>
    absurd h.symm (text_ne_word hf (by decide))
  | .quoted _, .word _, _, _, _, hg, _, _, h | .list _, .word _, _, _, _, hg, _, _, h =>
    absurd h (text_ne_word hg (by decide))
  | .quoted _, .list _, _, _, _, _, _, _, h | .list _, .quoted _, _, _, _, _, _, _, h =>
    absurd (List.cons.inj h).1 (by decide)

/-- Forms are told apart from what follows them. -/
theorem textEach_append_inj : ∀ {fs gs : List Form} {rest rest' : List Char}, EachWellFormed fs →
    EachWellFormed gs → Closes rest → Closes rest' → textEach fs ++ rest = textEach gs ++ rest' →
    fs = gs ∧ rest = rest'
  | [], [], _, _, _, _, _, _, h => ⟨rfl, h⟩
  | f :: fs, g :: gs, rest, rest', hfs, hgs, hrest, hrest', h => by
    simp only [textEach, List.append_assoc] at h
    obtain ⟨rfl, hmore⟩ := text_append_inj hfs.1 hgs.1 (runEnds_textMore hrest fs)
      (runEnds_textMore hrest' gs) h
    obtain ⟨rfl, rfl⟩ := textMore_append_inj hfs.2 hgs.2 hrest hrest' hmore
    exact ⟨rfl, rfl⟩
  | [], g :: gs, rest, _, _, hgs, hrest, _, h => by
    simp only [textEach, List.append_assoc, List.nil_append] at h
    exact absurd (h ▸ hrest) (not_closes_text hgs.1 _)
  | f :: fs, [], _, rest', hfs, _, _, hrest', h => by
    simp only [textEach, List.append_assoc, List.nil_append] at h
    exact absurd (h ▸ hrest') (not_closes_text hfs.1 _)

/-- So are forms with a blank in front of each. -/
theorem textMore_append_inj : ∀ {fs gs : List Form} {rest rest' : List Char}, EachWellFormed fs →
    EachWellFormed gs → Closes rest → Closes rest' → textMore fs ++ rest = textMore gs ++ rest' →
    fs = gs ∧ rest = rest'
  | [], [], _, _, _, _, _, _, h => ⟨rfl, h⟩
  | f :: fs, g :: gs, rest, rest', hfs, hgs, hrest, hrest', h => by
    simp only [textMore, List.cons_append, List.append_assoc, List.cons.injEq, true_and] at h
    obtain ⟨rfl, hmore⟩ := text_append_inj hfs.1 hgs.1 (runEnds_textMore hrest fs)
      (runEnds_textMore hrest' gs) h
    obtain ⟨rfl, rfl⟩ := textMore_append_inj hfs.2 hgs.2 hrest hrest' hmore
    exact ⟨rfl, rfl⟩
  | [], g :: gs, _, _, _, _, ⟨_, _, hrest, hc⟩, _, h => by
    rw [hrest] at h
    obtain ⟨rfl, -⟩ := List.cons.inj h
    rcases hc with hc | hc <;> cases hc
  | f :: fs, [], _, _, _, _, _, ⟨_, _, hrest', hc⟩, h => by
    rw [hrest'] at h
    obtain ⟨rfl, -⟩ := List.cons.inj h.symm
    rcases hc with hc | hc <;> cases hc

end

end Form

/-! ## Entries -/

/-- A list on a line of its own, closed on that line or behind the entries inside it. -/
inductive Entry where
  | leaf (items : List Form)
  | node (items : List Form) (inner : List Entry)

namespace Entry

/-- The indentation of a level. -/
def pad (depth : Nat) : List Char := List.replicate (2 * depth) ' '

mutual

/-- The text of an entry at the given depth. -/
def text (depth : Nat) : Entry → List Char
  | .leaf items => pad depth ++ '(' :: (Form.textEach items ++ [')', '\n'])
  | .node items inner =>
    pad depth ++ '(' :: (Form.textEach items ++
      '\n' :: (textEach (depth + 1) inner ++ (pad depth ++ [')', '\n'])))

/-- The texts of several entries. -/
def textEach (depth : Nat) : List Entry → List Char
  | [] => []
  | e :: es => e.text depth ++ textEach depth es

end

mutual

/-- An entry with well-formed items. -/
def WellFormed : Entry → Prop
  | .leaf items => Form.EachWellFormed items
  | .node items inner => Form.EachWellFormed items ∧ EachWellFormed inner

/-- Entries with well-formed items. -/
def EachWellFormed : List Entry → Prop
  | [] => True
  | e :: es => e.WellFormed ∧ EachWellFormed es

end

/-- No entry of the given depth follows. -/
def Ends (depth : Nat) (rest : List Char) : Prop := ¬pad depth ++ ['('] <+: rest

/-- One level deeper is two blanks more. -/
theorem pad_succ (depth : Nat) : pad (depth + 1) = pad depth ++ [' ', ' '] := by
  rw [pad, Nat.mul_add, ← List.replicate_append_replicate]
  rfl

/-- The parenthesis that closes an entry is less deep than the entries inside. -/
theorem ends_closing (depth : Nat) (rest : List Char) :
    Ends (depth + 1) (pad depth ++ ')' :: rest) := by
  rw [Ends, pad_succ, List.append_assoc, List.prefix_append_right_inj]
  rintro ⟨more, hmore⟩
  cases hmore

/-- An entry does not end the entries of its own depth. -/
theorem not_ends_text (depth : Nat) (e : Entry) (rest : List Char) :
    ¬Ends depth (e.text depth ++ rest) := by
  intro h
  cases e with
  | leaf items => exact h (by simp [text])
  | node items inner => exact h (by simp [text])

mutual

/-- Where the text of an entry ends, and which entry it is, can be told from the text. -/
theorem text_append_inj : ∀ {depth : Nat} {e e' : Entry} {rest rest' : List Char}, e.WellFormed →
    e'.WellFormed → e.text depth ++ rest = e'.text depth ++ rest' → e = e' ∧ rest = rest'
  | depth, .leaf items, .leaf items', rest, rest', he, he', h => by
    simp only [text, List.append_assoc, List.cons_append, List.append_cancel_left_eq,
      List.cons.injEq, true_and] at h
    obtain ⟨rfl, hrest⟩ := Form.textEach_append_inj he he' ⟨_, _, rfl, .inl rfl⟩
      ⟨_, _, rfl, .inl rfl⟩ h
    simpa using hrest
  | depth, .node items inner, .node items' inner', rest, rest', he, he', h => by
    simp only [text, List.append_assoc, List.cons_append, List.append_cancel_left_eq,
      List.cons.injEq, true_and] at h
    obtain ⟨rfl, hbehind⟩ := Form.textEach_append_inj he.1 he'.1 ⟨_, _, rfl, .inr rfl⟩
      ⟨_, _, rfl, .inr rfl⟩ h
    obtain ⟨rfl, hrest⟩ := textEach_append_inj he.2 he'.2 (ends_closing depth _)
      (ends_closing depth _) (List.cons.inj hbehind).2
    simpa using hrest
  | depth, .leaf items, .node items' inner', rest, rest', he, he', h => by
    simp only [text, List.append_assoc, List.cons_append, List.append_cancel_left_eq,
      List.cons.injEq, true_and] at h
    obtain ⟨rfl, hrest⟩ := Form.textEach_append_inj he he'.1 ⟨_, _, rfl, .inl rfl⟩
      ⟨_, _, rfl, .inr rfl⟩ h
    exact absurd (List.cons.inj hrest).1 (by decide)
  | depth, .node items inner, .leaf items', rest, rest', he, he', h => by
    simp only [text, List.append_assoc, List.cons_append, List.append_cancel_left_eq,
      List.cons.injEq, true_and] at h
    obtain ⟨rfl, hrest⟩ := Form.textEach_append_inj he.1 he' ⟨_, _, rfl, .inr rfl⟩
      ⟨_, _, rfl, .inl rfl⟩ h
    exact absurd (List.cons.inj hrest).1 (by decide)

/-- An outline can be read in one way only. -/
theorem textEach_append_inj : ∀ {depth : Nat} {es es' : List Entry} {rest rest' : List Char},
    EachWellFormed es → EachWellFormed es' → Ends depth rest → Ends depth rest' →
    textEach depth es ++ rest = textEach depth es' ++ rest' → es = es' ∧ rest = rest'
  | _, [], [], _, _, _, _, _, _, h => ⟨rfl, h⟩
  | depth, e :: es, e' :: es', rest, rest', hes, hes', hrest, hrest', h => by
    simp only [textEach, List.append_assoc] at h
    obtain ⟨rfl, hmore⟩ := text_append_inj hes.1 hes'.1 h
    obtain ⟨rfl, rfl⟩ := textEach_append_inj hes.2 hes'.2 hrest hrest' hmore
    exact ⟨rfl, rfl⟩
  | depth, [], e' :: es', rest, _, _, _, hrest, _, h => by
    simp only [textEach, List.append_assoc, List.nil_append] at h
    exact absurd (h ▸ hrest) (not_ends_text depth e' _)
  | depth, e :: es, [], _, rest', _, _, _, hrest', h => by
    simp only [textEach, List.append_assoc, List.nil_append] at h
    exact absurd (h ▸ hrest') (not_ends_text depth e _)

end

end Entry

end Offside
