import Offside.Token.Kind

/-!
# Cutting a source text into pieces

The first half of scanning splits a source text into pieces, each as long as it can be: a run of
blanks, a comment, a token with text of its own, a character that starts nothing, a string literal
without its closing quote, or a number literal without a value. The pieces concatenate to the text,
so no character is lost. Where lines and indentation matter is decided afterwards.
-/

namespace Offside

/-- What a piece of source text is. -/
inductive Piece.Role where
  /-- A run of spaces, tabs, carriage returns and form feeds. -/
  | blank
  /-- A comment, up to the end of its line. -/
  | comment
  /-- A token, line breaks included. -/
  | token (kind : Kind)
  /-- A character that can start no token. -/
  | stray
  /-- A string literal that the source ends inside. -/
  | unterminated
  /-- A number literal that spells out no number. -/
  | malformed
  deriving DecidableEq

/-- A stretch of source text that is read as a whole. -/
structure Piece where
  role : Piece.Role
  text : List Char
  deriving DecidableEq

namespace Piece

/-- The blanks that separate tokens inside a line. -/
def isGap (c : Char) : Bool := c == ' ' || c == '\t' || c == '\r' || c == '\x0c'

/-- The characters that start a name or reserved word. -/
def isWordStart (c : Char) : Bool := c.isAlpha || c == '_'

/-- The characters that continue a name or reserved word. -/
def isWordPart (c : Char) : Bool := c.isAlphanum || c == '_'

/-- The symbols of two characters. -/
def doubleSymbol? : Char → Char → Option Symbol
  | '*', '*' => some .power
  | '!', '=' => some .bangEqual
  | '=', '=' => some .equalEqual
  | '>', '=' => some .greaterEqual
  | '<', '=' => some .lessEqual
  | _, _ => none

/-- The symbols of one character. -/
def singleSymbol? : Char → Option Symbol
  | '(' => some .leftParen
  | ')' => some .rightParen
  | '[' => some .leftBracket
  | ']' => some .rightBracket
  | '\x7b' => some .leftBrace
  | '\x7d' => some .rightBrace
  | ',' => some .comma
  | '.' => some .dot
  | ':' => some .colon
  | '-' => some .minus
  | '+' => some .plus
  | '/' => some .slash
  | '*' => some .star
  | '%' => some .percent
  | '!' => some .bang
  | '=' => some .equal
  | '>' => some .greater
  | '<' => some .less
  | _ => none

/-- The kind of a word: reserved, or a name. -/
def wordKind (word : List Char) : Kind :=
  match Keyword.ofText? (String.ofList word) with
  | some k => .keyword k
  | none => .identifier

/-- A piece together with the text that follows it. -/
abbrev Cut := Piece × List Char

/-- The character `c` and all that satisfy `p` after it. -/
def cutRun (role : List Char → Role) (p : Char → Bool) (c : Char) (cs : List Char) : Cut :=
  let text := c :: cs.takeWhile p
  (⟨role text, text⟩, cs.dropWhile p)

/-- A string literal, after its opening quote. It may span lines. -/
def cutString (cs : List Char) : Cut :=
  let contents := cs.takeWhile (· ≠ '"')
  match cs.dropWhile (· ≠ '"') with
  | [] => (⟨.unterminated, '"' :: contents⟩, [])
  | _ :: rest => (⟨.token (.string (String.ofList contents)), '"' :: contents ++ ['"']⟩, rest)

/-- The digits of a fraction, if the text starts with a point and a digit. -/
def fraction : List Char → List Char
  | '.' :: cs => cs.takeWhile Char.isDigit
  | _ => []

/-- What a number literal is. -/
def numberRole (text : List Char) : Role :=
  match Number.ofText? text with
  | some value => .token (.number value)
  | none => .malformed

/-- A number literal. Its point belongs to it only in front of a digit. -/
def cutNumber (c : Char) (cs : List Char) : Cut :=
  let whole := c :: cs.takeWhile Char.isDigit
  let rest := cs.dropWhile Char.isDigit
  let decimals := fraction rest
  let text := if decimals.isEmpty then whole else whole ++ '.' :: decimals
  (⟨numberRole text, text⟩,
    if decimals.isEmpty then rest else rest.drop (decimals.length + 1))

/-- A symbol of one character, or a stray character. -/
def cutSingle (c : Char) (cs : List Char) : Cut :=
  match singleSymbol? c with
  | some s => (⟨.token (.symbol s), [c]⟩, cs)
  | none => (⟨.stray, [c]⟩, cs)

/-- A symbol, the longer one where two fit. -/
def cutSymbol (c : Char) : List Char → Cut
  | [] => cutSingle c []
  | d :: cs =>
    match doubleSymbol? c d with
    | some s => (⟨.token (.symbol s), [c, d]⟩, cs)
    | none => cutSingle c (d :: cs)

/-- The piece at the start of the text `c :: cs`. -/
def cut (c : Char) (cs : List Char) : Cut :=
  if isGap c then cutRun (fun _ => .blank) isGap c cs
  else if c = '#' then cutRun (fun _ => .comment) (· ≠ '\n') c cs
  else if c = '\n' then (⟨.token .newline, [c]⟩, cs)
  else if c = '"' then cutString cs
  else if isWordStart c then cutRun (fun word => .token (wordKind word)) isWordPart c cs
  else if c.isDigit then cutNumber c cs
  else cutSymbol c cs

/-- A run and what follows it are the text. -/
theorem cutRun_append (role : List Char → Role) (p : Char → Bool) (c : Char) (cs : List Char) :
    (cutRun role p c cs).1.text ++ (cutRun role p c cs).2 = c :: cs := by
  simp [cutRun]

/-- A string and what follows it are the text. -/
theorem cutString_append (cs : List Char) :
    (cutString cs).1.text ++ (cutString cs).2 = '"' :: cs := by
  have hspan := List.takeWhile_append_dropWhile (p := (· ≠ '"')) (l := cs)
  unfold cutString
  split
  next h =>
    rw [h] at hspan
    simpa only [List.cons_append, List.cons.injEq, true_and] using hspan
  next quote rest h =>
    have hquote : quote = '"' := by
      have := List.head?_dropWhile_not (· ≠ '"') cs
      rw [h] at this
      simpa using this
    rw [h, hquote] at hspan
    simpa only [List.cons_append, List.append_assoc, List.nil_append, List.cons.injEq, true_and]
      using hspan

/-- A fraction is the point and the digits at the start of the text. -/
theorem fraction_append {cs : List Char} (h : fraction cs ≠ []) :
    '.' :: fraction cs ++ cs.drop ((fraction cs).length + 1) = cs := by
  unfold fraction at h ⊢
  split
  next cs =>
    have hspan := List.takeWhile_append_dropWhile (p := Char.isDigit) (l := cs)
    have hdrop : (cs.takeWhile Char.isDigit ++ cs.dropWhile Char.isDigit).drop
        (cs.takeWhile Char.isDigit).length = cs.dropWhile Char.isDigit := List.drop_left
    rw [hspan] at hdrop
    simp [hdrop]
  next hpoint =>
    split at h
    next cs => exact absurd rfl (hpoint cs)
    next => exact absurd rfl h

/-- A number and what follows it are the text. -/
theorem cutNumber_append (c : Char) (cs : List Char) :
    (cutNumber c cs).1.text ++ (cutNumber c cs).2 = c :: cs := by
  simp only [cutNumber]
  split
  next => simp
  next h =>
    have hne : fraction (cs.dropWhile Char.isDigit) ≠ [] := by simpa using h
    have := fraction_append hne
    simp only [List.cons_append] at this
    simp [this]

/-- A symbol of one character and what follows it are the text. -/
theorem cutSingle_append (c : Char) (cs : List Char) :
    (cutSingle c cs).1.text ++ (cutSingle c cs).2 = c :: cs := by
  unfold cutSingle
  split <;> rfl

/-- A symbol and what follows it are the text. -/
theorem cutSymbol_append (c : Char) (cs : List Char) :
    (cutSymbol c cs).1.text ++ (cutSymbol c cs).2 = c :: cs := by
  unfold cutSymbol
  split
  · exact cutSingle_append c []
  · split
    · rfl
    · exact cutSingle_append c _

/-- A piece is the start of the text, and what follows it is the rest. -/
theorem cut_append (c : Char) (cs : List Char) : (cut c cs).1.text ++ (cut c cs).2 = c :: cs := by
  unfold cut
  split
  · exact cutRun_append ..
  split
  · exact cutRun_append ..
  split
  · rfl
  split
  next h => exact h ▸ cutString_append cs
  split
  · exact cutRun_append ..
  split
  · exact cutNumber_append c cs
  · exact cutSymbol_append c cs

/-- Every piece has at least one character. -/
theorem cut_text_ne_nil (c : Char) (cs : List Char) : (cut c cs).1.text ≠ [] := by
  unfold cut
  repeat' split
  · simp [cutRun]
  · simp [cutRun]
  · simp
  · unfold cutString
    split <;> simp
  · simp [cutRun]
  · simp only [cutNumber]
    split <;> simp
  · unfold cutSymbol cutSingle
    repeat' split
    all_goals simp

/-- The text behind a piece is shorter than the text it was cut from. -/
theorem length_cut_lt (c : Char) (cs : List Char) : (cut c cs).2.length < (c :: cs).length := by
  have happend := congrArg List.length (cut_append c cs)
  have hpos := List.length_pos_iff.mpr (cut_text_ne_nil c cs)
  rw [List.length_append] at happend
  omega

/-- Cuts a whole text, in front of the pieces cut before in reverse order. -/
def cutAll (done : List Piece) : List Char → List Piece
  | [] => done.reverse
  | c :: cs => cutAll ((cut c cs).1 :: done) (cut c cs).2
termination_by cs => cs.length
decreasing_by exact length_cut_lt c cs

end Piece

/-- The pieces of a text, in order. -/
def pieces (cs : List Char) : List Piece := Piece.cutAll [] cs

/-- Pieces are cut behind the ones already done. -/
theorem Piece.cutAll_eq (done : List Piece) (cs : List Char) :
    Piece.cutAll done cs = done.reverse ++ pieces cs := by
  induction h : cs.length using Nat.strongRecOn generalizing done cs with
  | _ n ih =>
    cases cs with
    | nil => simp [pieces, Piece.cutAll]
    | cons c cs =>
      have hlt := h ▸ Piece.length_cut_lt c cs
      rw [pieces, Piece.cutAll, Piece.cutAll, ih _ hlt _ _ rfl, ih _ hlt [_] _ rfl]
      simp

/-- The empty text has no pieces. -/
@[simp] theorem pieces_nil : pieces [] = [] := by simp [pieces, Piece.cutAll]

/-- The pieces of a non-empty text are the first one and the pieces of what follows it. -/
theorem pieces_cons (c : Char) (cs : List Char) :
    pieces (c :: cs) = (Piece.cut c cs).1 :: pieces (Piece.cut c cs).2 := by
  rw [pieces, Piece.cutAll, Piece.cutAll_eq]
  simp

/-- The pieces of a text concatenate to it. -/
theorem flatMap_text_pieces (cs : List Char) : (pieces cs).flatMap Piece.text = cs := by
  induction h : cs.length using Nat.strongRecOn generalizing cs with
  | _ n ih =>
    cases cs with
    | nil => simp
    | cons c cs =>
      rw [pieces_cons, List.flatMap_cons, ih _ (h ▸ Piece.length_cut_lt c cs) _ rfl,
        Piece.cut_append]

end Offside
