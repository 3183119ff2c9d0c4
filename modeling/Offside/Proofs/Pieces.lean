import Offside.Proofs.Cutting

/-!
# What the pieces of a text are

Each piece is of a form that its role tells: a run of blanks, a comment up to the end of its line, a
single stray character, a string that is never closed, or the text of a token. The text of a token
is cut off as the same token wherever a space, a line break or nothing follows it, so tokens that
are written with a space between them never merge. Number literals always have a value.
-/

namespace Offside

/-- Whether a token of this kind stands for the layout and has no text inside a line. -/
def Kind.isStructural : Kind → Bool
  | .newline | .indent | .dedent | .endOfInput => true
  | _ => false

/-- A kind that is not structural is none of the structural ones. -/
theorem Kind.ne_of_isStructural {kind other : Kind} (h : kind.isStructural = false)
    (hother : other.isStructural) : kind ≠ other := by
  rintro rfl
  simp [h] at hother

/-- A run of characters that satisfy `p` ends in front of `cs`. -/
def RunEnds (p : Char → Bool) (cs : List Char) : Prop := ∀ c ∈ cs.head?, p c = false

/-- A run ends at a character of another sort. -/
theorem runEnds_cons {p : Char → Bool} {c : Char} {cs : List Char} (h : p c = false) :
    RunEnds p (c :: cs) := by
  intro d hd
  obtain rfl : c = d := by simpa using hd
  exact h

/-- A run ends where it has been dropped. -/
theorem runEnds_dropWhile (p : Char → Bool) (cs : List Char) : RunEnds p (cs.dropWhile p) := by
  intro c hc
  have hhead := List.head?_dropWhile_not p cs
  rw [Option.mem_def] at hc
  simpa [hc] using hhead

/-- A run is cut off where it ends. -/
theorem run_exact {p : Char → Bool} {cs rest : List Char} (hcs : ∀ c ∈ cs, p c)
    (hrest : RunEnds p rest) :
    (cs ++ rest).takeWhile p = cs ∧ (cs ++ rest).dropWhile p = rest := by
  rw [List.takeWhile_append_of_pos hcs, List.dropWhile_append_of_pos hcs]
  cases rest with
  | nil => simp
  | cons c rest =>
    have hc : p c = false := hrest c (by simp)
    simp [hc]

/-- Every character of a run is of its sort. -/
theorem of_mem_takeWhile {p : Char → Bool} {c : Char} {cs : List Char} (h : c ∈ cs.takeWhile p) :
    p c :=
  List.all_eq_true.mp List.all_takeWhile c h

namespace Number

/-- Digits alone spell out a number. -/
theorem ofText?_digits {whole : List Char} (hne : whole ≠ []) (hwhole : ∀ c ∈ whole, c.isDigit) :
    ofText? whole = some (ofDigits whole []) := by
  have hend : RunEnds Char.isDigit [] := by simp [RunEnds]
  obtain ⟨htake, hdrop⟩ := run_exact hwhole hend
  rw [List.append_nil] at htake hdrop
  simp [ofText?, htake, hdrop, hne]

/-- So do digits with a point and digits behind them. -/
theorem ofText?_decimals {whole decimals : List Char} (hne : whole ≠ [])
    (hwhole : ∀ c ∈ whole, c.isDigit) (hdecimals : ∀ c ∈ decimals, c.isDigit) :
    ofText? (whole ++ '.' :: decimals) = some (ofDigits whole decimals) := by
  have hpoint : RunEnds Char.isDigit ('.' :: decimals) := runEnds_cons (by decide)
  obtain ⟨htake, hdrop⟩ := run_exact hwhole hpoint
  have hall : decimals.all Char.isDigit = true := List.all_eq_true.mpr hdecimals
  simp [ofText?, htake, hdrop, hne, hall]

end Number

namespace Piece

/-- Nothing, a space or a line break follows. -/
def Separated (rest : List Char) : Prop := ∀ c ∈ rest.head?, c = ' ' ∨ c = '\n'

/-- A run without blanks and line breaks ends at a separator. -/
theorem Separated.runEnds {rest : List Char} (h : Separated rest) {p : Char → Bool}
    (hspace : p ' ' = false) (hbreak : p '\n' = false) : RunEnds p rest := by
  intro c hc
  rcases h c hc with rfl | rfl
  · exact hspace
  · exact hbreak

/-- A piece that is cut off as it is wherever nothing, a space or a line break follows it. -/
def StandsAlone (p : Piece) : Prop :=
  ∃ c cs, p.text = c :: cs ∧ ∀ rest, Separated rest → cut c (cs ++ rest) = (p, rest)

/-- What the role of a piece tells about its text and about the text behind it. -/
def Proper (p : Piece) (rest : List Char) : Prop :=
  match p.role with
  | .blank => (∀ c ∈ p.text, isGap c) ∧ RunEnds isGap rest
  | .comment => ∃ cs, p.text = '#' :: cs ∧ '\n' ∉ cs ∧ ∀ c ∈ rest.head?, c = '\n'
  | .token .newline => p.text = ['\n']
  | .token kind => kind.isStructural = false ∧ p.StandsAlone
  | .stray => ∃ c, p.text = [c]
  | .unterminated => ∃ cs, p.text = '"' :: cs ∧ '"' ∉ cs ∧ rest = []
  | .malformed => False

/-- A token that stands alone is proper. -/
theorem proper_token {kind : Kind} {text rest : List Char} (hkind : kind.isStructural = false)
    (halone : StandsAlone ⟨.token kind, text⟩) : Proper ⟨.token kind, text⟩ rest := by
  cases kind with
  | newline => cases hkind
  | _ => exact ⟨hkind, halone⟩

/-- A proper token that is no newline stands alone. -/
theorem Proper.of_token {kind : Kind} {text rest : List Char}
    (h : Proper ⟨.token kind, text⟩ rest) (hkind : kind ≠ .newline) :
    kind.isStructural = false ∧ StandsAlone ⟨.token kind, text⟩ := by
  cases kind with
  | newline => exact absurd rfl hkind
  | _ => exact h

/-- The ways to cut off a piece that starts with `c`. -/
inductive CutsAs (c : Char) : (List Char → Cut) → Prop
  | gap : isGap c → CutsAs c (cutRun (fun _ => .blank) isGap c)
  | comment : c = '#' → CutsAs c (cutRun (fun _ => .comment) (· ≠ '\n') c)
  | lineBreak : c = '\n' → CutsAs c fun cs => (⟨.token .newline, [c]⟩, cs)
  | string : c = '"' → CutsAs c cutString
  | word : isWordStart c → CutsAs c (cutRun (fun word => .token (wordKind word)) isWordPart c)
  | number : c.isDigit → CutsAs c (cutNumber c)
  | symbol : CutsAs c (cutSymbol c)

/-- The first character of a piece decides how it is cut off. -/
theorem cutsAs (c : Char) : CutsAs c (cut c) := by
  unfold cut
  by_cases hgap : isGap c = true
  · simp only [if_pos hgap]
    exact .gap hgap
  by_cases hcomment : c = '#'
  · simp only [if_neg hgap, if_pos hcomment]
    exact .comment hcomment
  by_cases hbreak : c = '\n'
  · simp only [if_neg hgap, if_neg hcomment, if_pos hbreak]
    exact .lineBreak hbreak
  by_cases hquote : c = '"'
  · simp only [if_neg hgap, if_neg hcomment, if_neg hbreak, if_pos hquote]
    exact .string hquote
  by_cases hword : isWordStart c = true
  · simp only [if_neg hgap, if_neg hcomment, if_neg hbreak, if_neg hquote, if_pos hword]
    exact .word hword
  by_cases hdigit : c.isDigit = true
  · simp only [if_neg hgap, if_neg hcomment, if_neg hbreak, if_neg hquote, if_neg hword,
      if_pos hdigit]
    exact .number hdigit
  · simp only [if_neg hgap, if_neg hcomment, if_neg hbreak, if_neg hquote, if_neg hword,
      if_neg hdigit]
    exact .symbol

section

variable {c : Char} {cs rest : List Char}

/-! ## Runs and strings -/

/-- A run is cut whole where it ends. -/
theorem cutRun_exact (role : List Char → Role) {p : Char → Bool} (hcs : ∀ d ∈ cs, p d)
    (hrest : RunEnds p rest) :
    cutRun role p c (cs ++ rest) = (⟨role (c :: cs), c :: cs⟩, rest) := by
  obtain ⟨htake, hdrop⟩ := run_exact hcs hrest
  simp [cutRun, htake, hdrop]

/-- A word is no structural token. -/
theorem isStructural_wordKind (word : List Char) : (wordKind word).isStructural = false := by
  unfold wordKind
  split <;> rfl

/-- A string is cut up to its closing quote. -/
theorem cutString_exact (hcs : '"' ∉ cs) :
    cutString (cs ++ '"' :: rest) =
      (⟨.token (.string (String.ofList cs)), '"' :: cs ++ ['"']⟩, rest) := by
  have hinside : ∀ d ∈ cs, decide (d ≠ '"') = true := by
    intro d hd
    exact decide_eq_true fun heq => hcs (heq ▸ hd)
  have hquote : RunEnds (· ≠ '"') ('"' :: rest) := runEnds_cons (by decide)
  obtain ⟨htake, hdrop⟩ := run_exact hinside hquote
  unfold cutString
  rw [htake, hdrop]

/-- A piece that is cut as a string is proper. -/
theorem proper_cutString (hcut : cut '"' = cutString) (cs : List Char) :
    (cutString cs).1.Proper (cutString cs).2 := by
  have hinside : '"' ∉ cs.takeWhile (· ≠ '"') := by
    intro hmem
    have hne := of_mem_takeWhile hmem
    simp at hne
  unfold cutString
  split
  next => exact ⟨_, rfl, hinside, rfl⟩
  next =>
    refine proper_token rfl ⟨'"', cs.takeWhile (· ≠ '"') ++ ['"'], rfl, fun rest _ => ?_⟩
    rw [hcut, List.append_assoc]
    exact cutString_exact hinside

/-! ## Numbers -/

/-- Digits are cut whole where they end without a point. -/
theorem cutNumber_whole (hcs : ∀ d ∈ cs, d.isDigit) (hrest : RunEnds Char.isDigit rest)
    (hpoint : RunEnds (· == '.') rest) :
    cutNumber c (cs ++ rest) = (⟨numberRole (c :: cs), c :: cs⟩, rest) := by
  obtain ⟨htake, hdrop⟩ := run_exact hcs hrest
  have hfraction : fraction rest = [] := by
    unfold fraction
    split
    next rest =>
      have hfirst := hpoint '.' (by simp)
      simp at hfirst
    next => rfl
  simp [cutNumber, htake, hdrop, hfraction]

/-- Digits, a point and digits are cut whole where they end. -/
theorem cutNumber_decimals {decimals : List Char} (hcs : ∀ d ∈ cs, d.isDigit)
    (hdecimals : ∀ d ∈ decimals, d.isDigit) (hne : decimals ≠ [])
    (hrest : RunEnds Char.isDigit rest) :
    cutNumber c (cs ++ '.' :: decimals ++ rest) =
      (⟨numberRole (c :: cs ++ '.' :: decimals), c :: cs ++ '.' :: decimals⟩, rest) := by
  have hpoint : RunEnds Char.isDigit ('.' :: (decimals ++ rest)) := runEnds_cons (by decide)
  obtain ⟨htake, hdrop⟩ := run_exact hcs hpoint
  have hfraction : fraction ('.' :: (decimals ++ rest)) = decimals :=
    (run_exact hdecimals hrest).1
  simp [cutNumber, htake, hdrop, hfraction, hne]

/-- Digits are a number token of their value. -/
theorem numberRole_digits {whole : List Char} (hne : whole ≠ []) (h : ∀ d ∈ whole, d.isDigit) :
    numberRole whole = .token (.number (Number.ofDigits whole [])) := by
  rw [numberRole, Number.ofText?_digits hne h]

/-- Digits around a point are a number token of their value. -/
theorem numberRole_decimals {whole decimals : List Char} (hne : whole ≠ [])
    (h : ∀ d ∈ whole, d.isDigit) (h' : ∀ d ∈ decimals, d.isDigit) :
    numberRole (whole ++ '.' :: decimals) = .token (.number (Number.ofDigits whole decimals)) := by
  rw [numberRole, Number.ofText?_decimals hne h h']

/-- A piece that is cut as a number is proper. -/
theorem proper_cutNumber (hc : c.isDigit) (hcut : cut c = cutNumber c) (cs : List Char) :
    (cutNumber c cs).1.Proper (cutNumber c cs).2 := by
  let digits := cs.takeWhile Char.isDigit
  let decimals := fraction (cs.dropWhile Char.isDigit)
  have hdigits : ∀ d ∈ digits, d.isDigit := fun d hd => of_mem_takeWhile hd
  have hwhole : ∀ d ∈ c :: digits, d.isDigit := List.forall_mem_cons.mpr ⟨hc, hdigits⟩
  have hdecimals : ∀ d ∈ decimals, d.isDigit := fun d hd => isDigit_of_mem_fraction hd
  simp only [cutNumber]
  by_cases hne : decimals = []
  · have hempty : (fraction (cs.dropWhile Char.isDigit)).isEmpty = true := List.isEmpty_iff.mpr hne
    have hrole := numberRole_digits (List.cons_ne_nil c digits) hwhole
    simp only [hempty, if_true]
    rw [hrole]
    refine proper_token rfl ⟨c, digits, rfl, fun rest hrest => ?_⟩
    rw [hcut, cutNumber_whole hdigits (hrest.runEnds rfl rfl) (hrest.runEnds rfl rfl), hrole]
  · have hfull : (fraction (cs.dropWhile Char.isDigit)).isEmpty = false :=
      List.isEmpty_eq_false_iff.mpr hne
    have hrole := numberRole_decimals (List.cons_ne_nil c digits) hwhole hdecimals
    simp only [hfull, Bool.false_eq_true, if_false]
    rw [hrole]
    refine proper_token rfl ⟨c, digits ++ '.' :: decimals, rfl, fun rest hrest => ?_⟩
    rw [hcut, cutNumber_decimals hdigits hdecimals hne (hrest.runEnds rfl rfl), hrole]

/-! ## Symbols -/

/-- A blank or a line break is not the second half of a symbol. -/
theorem cutSymbol_separated (hrest : Separated rest) : cutSymbol c rest = cutSingle c rest := by
  cases rest with
  | nil => rfl
  | cons d rest =>
    have hdouble : doubleSymbol? c d = none := by
      rcases hrest d (by simp) with rfl | rfl <;> simp [doubleSymbol?]
    simp [cutSymbol, hdouble]

/-- A piece that is cut as one symbol character is proper. -/
theorem proper_cutSingle (hcut : cut c = cutSymbol c) (rest : List Char) :
    (cutSingle c rest).1.Proper (cutSingle c rest).2 := by
  unfold cutSingle
  cases hsymbol : singleSymbol? c with
  | none => exact ⟨c, rfl⟩
  | some s =>
    refine proper_token rfl ⟨c, [], rfl, fun rest hrest => ?_⟩
    rw [hcut, List.nil_append, cutSymbol_separated hrest, cutSingle, hsymbol]

/-- A piece that is cut as a symbol is proper. -/
theorem proper_cutSymbol (hcut : cut c = cutSymbol c) (cs : List Char) :
    (cutSymbol c cs).1.Proper (cutSymbol c cs).2 := by
  cases cs with
  | nil => exact proper_cutSingle hcut []
  | cons d cs =>
    cases hdouble : doubleSymbol? c d with
    | none =>
      simp only [cutSymbol, hdouble]
      exact proper_cutSingle hcut (d :: cs)
    | some s =>
      simp only [cutSymbol, hdouble]
      refine proper_token rfl ⟨c, [d], rfl, fun rest _ => ?_⟩
      rw [hcut, List.singleton_append, cutSymbol, hdouble]

end

/-- Every piece is of the form that its role tells. -/
theorem proper_cut (c : Char) (cs : List Char) : (cut c cs).1.Proper (cut c cs).2 := by
  have hcuts := cutsAs c
  generalize hcut : cut c = f at hcuts ⊢
  cases hcuts with
  | gap hgap =>
    have hrun : ∀ d ∈ c :: cs.takeWhile isGap, isGap d :=
      List.forall_mem_cons.mpr ⟨hgap, fun d hd => of_mem_takeWhile hd⟩
    exact ⟨hrun, runEnds_dropWhile isGap cs⟩
  | comment hc =>
    have hinside : '\n' ∉ cs.takeWhile (· ≠ '\n') := by
      intro hmem
      have hne := of_mem_takeWhile hmem
      simp at hne
    have hend : ∀ d ∈ (cs.dropWhile (· ≠ '\n')).head?, d = '\n' := by
      intro d hd
      simpa using runEnds_dropWhile (· ≠ '\n') cs d hd
    exact ⟨_, by rw [hc]; rfl, hinside, hend⟩
  | lineBreak hc => exact congrArg ([·]) hc
  | string hc =>
    subst hc
    exact proper_cutString hcut cs
  | word hword =>
    refine proper_token (isStructural_wordKind _) ⟨c, cs.takeWhile isWordPart, rfl, ?_⟩
    intro rest hrest
    rw [hcut]
    exact cutRun_exact _ (fun d hd => of_mem_takeWhile hd) (hrest.runEnds (by decide) (by decide))
  | number hdigit => exact proper_cutNumber hdigit hcut cs
  | symbol => exact proper_cutSymbol hcut cs

end Piece

/-- Non-empty pieces that are each of the form that its role tells, in front of the text of those
behind. -/
def AllProper : List Piece → Prop
  | [] => True
  | p :: ps => p.text ≠ [] ∧ p.Proper (ps.flatMap Piece.text) ∧ AllProper ps

/-- All pieces of a text are proper. -/
theorem allProper_pieces (cs : List Char) : AllProper (pieces cs) := by
  induction h : cs.length using Nat.strongRecOn generalizing cs with
  | _ n ih =>
    cases cs with
    | nil =>
      rw [pieces_nil]
      trivial
    | cons c cs =>
      rw [pieces_cons]
      refine ⟨Piece.cut_text_ne_nil c cs, ?_, ih _ (h ▸ Piece.length_cut_lt c cs) _ rfl⟩
      rw [flatMap_text_pieces]
      exact Piece.proper_cut c cs

end Offside
