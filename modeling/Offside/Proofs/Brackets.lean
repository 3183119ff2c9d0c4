import Offside.Console.Entry
import Offside.Proofs.Coverage
import Offside.Proofs.InertText

/-!
# Brackets of an entry

The console walks over an entry character by character, and the scanner cuts it into pieces. Both
agree on what is a string, a comment and a bracket: every piece other than a bracket and a string
without an end leaves the walk of the console as it was. So what the console says about an entry can
be read off the bracket tokens of its scan.
-/

namespace Offside

/-- Whether a token of this kind opens a bracket. -/
def Kind.opens : Kind → Bool
  | .symbol s => s.opens
  | _ => false

/-- Whether a token of this kind closes a bracket. -/
def Kind.closes : Kind → Bool
  | .symbol s => s.closes
  | _ => false

/-- Whether a token of this kind is a bracket. -/
def Kind.isBracket (kind : Kind) : Bool := kind.opens || kind.closes

/-- The brackets among some tokens. -/
def brackets (ts : List Token) : List Token := ts.filter (·.kind.isBracket)

/-- The bracket tokens of a text. -/
def bracketsOf (input : String) : List Token := brackets (scan input).tokens

/-- The number of brackets that some tokens open. -/
def openings (ts : List Token) : Nat := ts.countP (·.kind.opens)

/-- The number of brackets that some tokens close. -/
def closings (ts : List Token) : Nat := ts.countP (·.kind.closes)

/-- More brackets are closed than opened. -/
def Overclosed (ts : List Token) : Prop := openings ts < closings ts

/-- The shortest tokens at the start of `ts` that close more brackets than they open. -/
structure ShortestOverclosed (ts front : List Token) : Prop where
  isPrefix : front <+: ts
  overclosed : Overclosed front
  shortest {other : List Token} : other <+: ts → Overclosed other → front.length ≤ other.length

/-! ## Counting brackets -/

/-- Opening brackets of two runs of tokens add up. -/
theorem openings_append (ts us : List Token) : openings (ts ++ us) = openings ts + openings us :=
  List.countP_append

/-- So do closing brackets. -/
theorem closings_append (ts us : List Token) : closings (ts ++ us) = closings ts + closings us :=
  List.countP_append

/-- The count of opening brackets is that of the first token and that of the others. -/
theorem openings_cons (t : Token) (ts : List Token) :
    openings (t :: ts) = openings [t] + openings ts :=
  openings_append [t] ts

/-- So is the count of closing brackets. -/
theorem closings_cons (t : Token) (ts : List Token) :
    closings (t :: ts) = closings [t] + closings ts :=
  closings_append [t] ts

/-- No bracket both opens and closes. -/
theorem Kind.closes_of_opens {kind : Kind} (h : kind.opens) : kind.closes = false := by
  cases kind with
  | symbol s => cases s <;> first | rfl | cases h
  | _ => cases h

/-- The number of brackets that are open behind some tokens, or the first token that closes
nothing. -/
def openBehind (depth : Nat) : List Token → Except Token Nat
  | [] => .ok depth
  | t :: ts =>
    if t.kind.opens then openBehind (depth + 1) ts
    else if t.kind.closes then
      match depth with
      | 0 => .error t
      | depth + 1 => openBehind depth ts
    else openBehind depth ts

/-- An opening bracket is one more that is open. -/
theorem openBehind_opens {t : Token} (h : t.kind.opens) (depth : Nat) (ts : List Token) :
    openBehind depth (t :: ts) = openBehind (depth + 1) ts := by
  simp [openBehind, h]

/-- A closing bracket is one less, if one is open. -/
theorem openBehind_closes {t : Token} (h : t.kind.closes) (hopens : t.kind.opens = false)
    (depth : Nat) (ts : List Token) :
    openBehind (depth + 1) (t :: ts) = openBehind depth ts := by
  simp [openBehind, h, hopens]

/-- A closing bracket where none is open is reported. -/
theorem openBehind_unmatched {t : Token} (h : t.kind.closes) (hopens : t.kind.opens = false)
    (ts : List Token) : openBehind 0 (t :: ts) = .error t := by
  simp [openBehind, h, hopens]

/-- Other tokens do not count. -/
theorem openBehind_plain {t : Token} (h : t.kind.isBracket = false) (depth : Nat)
    (ts : List Token) : openBehind depth (t :: ts) = openBehind depth ts := by
  simp only [Kind.isBracket, Bool.or_eq_false_iff] at h
  simp [openBehind, h]

/-- A token closes nothing, or it changes the number of open brackets by what it opens and
closes. -/
theorem openBehind_cons (depth : Nat) (t : Token) (ts : List Token) :
    (openBehind depth (t :: ts) = .error t ∧ closings [t] = depth + openings [t] + 1) ∨
      ∃ depth', openBehind depth (t :: ts) = openBehind depth' ts ∧
        depth' + closings [t] = depth + openings [t] := by
  by_cases hopens : t.kind.opens
  · have hcloses := Kind.closes_of_opens hopens
    refine .inr ⟨depth + 1, openBehind_opens hopens depth ts, ?_⟩
    simp [openings, closings, hopens, hcloses]
  · rw [Bool.not_eq_true] at hopens
    by_cases hcloses : t.kind.closes
    · cases depth with
      | zero =>
        refine .inl ⟨openBehind_unmatched hcloses hopens ts, ?_⟩
        simp [openings, closings, hopens, hcloses]
      | succ depth =>
        refine .inr ⟨depth, openBehind_closes hcloses hopens depth ts, ?_⟩
        simp [openings, closings, hopens, hcloses]
    · rw [Bool.not_eq_true] at hcloses
      refine .inr ⟨depth, openBehind_plain (by simp [Kind.isBracket, hopens, hcloses]) depth ts, ?_⟩
      simp [openings, closings, hopens, hcloses]

/-- What is no bracket does not count. -/
theorem openBehind_brackets (depth : Nat) (ts : List Token) :
    openBehind depth (brackets ts) = openBehind depth ts := by
  induction ts generalizing depth with
  | nil => rfl
  | cons t ts ih =>
    by_cases h : t.kind.isBracket
    · rw [brackets, List.filter_cons_of_pos (by exact h), ← brackets]
      cases depth <;> simp only [openBehind, ih]
    · rw [brackets, List.filter_cons_of_neg (by exact h), ← brackets, ih,
        openBehind_plain (by simpa using h)]

/-- With `depth` brackets open, no tokens at the start close more than there is to close. -/
def Closable (depth : Nat) (ts : List Token) : Prop :=
  ∀ front, front <+: ts → closings front ≤ depth + openings front

/-- Nothing closes too much. -/
theorem closable_nil (depth : Nat) : Closable depth [] := by
  intro front hfront
  rw [List.prefix_nil.mp hfront]
  exact Nat.zero_le _

/-- A token in front shifts the number of brackets that may be closed by what it opens or closes
itself. -/
theorem Closable.cons {depth depth' : Nat} {t : Token} {ts : List Token}
    (h : Closable depth' ts) (hstep : depth' + closings [t] = depth + openings [t]) :
    Closable depth (t :: ts) := by
  intro front hfront
  rcases List.prefix_cons_iff.mp hfront with rfl | ⟨rest, rfl, hrest⟩
  · exact Nat.zero_le _
  · have hle := h rest hrest
    rw [openings_cons, closings_cons]
    omega

/-- If no bracket is unmatched, none closes too much at any place, and the open ones are the
difference. -/
theorem openBehind_eq_ok {depth n : Nat} {ts : List Token} (h : openBehind depth ts = .ok n) :
    Closable depth ts ∧ n + closings ts = depth + openings ts := by
  induction ts generalizing depth with
  | nil =>
    cases h
    exact ⟨closable_nil n, rfl⟩
  | cons t ts ih =>
    rcases openBehind_cons depth t ts with ⟨herror, -⟩ | ⟨depth', hnext, hstep⟩
    · rw [herror] at h
      cases h
    · obtain ⟨hclosable, htotal⟩ := ih (hnext ▸ h)
      refine ⟨hclosable.cons hstep, ?_⟩
      rw [openings_cons, closings_cons]
      omega

/-- If a bracket is unmatched, it closes more than was open, and it is the first one that does. -/
theorem openBehind_eq_error {depth : Nat} {t : Token} {ts : List Token}
    (h : openBehind depth ts = .error t) :
    ∃ before after, ts = before ++ t :: after ∧ Closable depth before ∧
      depth + openings (before ++ [t]) < closings (before ++ [t]) := by
  induction ts generalizing depth with
  | nil => cases h
  | cons u ts ih =>
    rcases openBehind_cons depth u ts with ⟨herror, hone⟩ | ⟨depth', hnext, hstep⟩
    · rw [herror] at h
      cases h
      refine ⟨[], ts, rfl, closable_nil depth, ?_⟩
      rw [List.nil_append]
      omega
    · obtain ⟨before, after, rfl, hclosable, hmore⟩ := ih (hnext ▸ h)
      refine ⟨u :: before, after, rfl, hclosable.cons hstep, ?_⟩
      rw [List.cons_append, openings_cons, closings_cons]
      omega

/-- Tokens that close nothing too much have no overclosed beginning. -/
theorem Closable.not_overclosed {ts : List Token} (h : Closable 0 ts) :
    ¬∃ front, front <+: ts ∧ Overclosed front := by
  rintro ⟨front, hfront, hover⟩
  have hle := h front hfront
  rw [Nat.zero_add] at hle
  exact Nat.not_lt.mpr hle hover

/-- The first token that closes nothing is the last one of the shortest tokens at the start that
close more brackets than they open. -/
theorem exists_shortestOverclosed {t : Token} {ts : List Token} (h : openBehind 0 ts = .error t) :
    ∃ before, ShortestOverclosed ts (before ++ [t]) := by
  obtain ⟨before, after, rfl, hclosable, hmore⟩ := openBehind_eq_error h
  refine ⟨before, ⟨after, by simp⟩, by rwa [Nat.zero_add] at hmore, fun hother hover => ?_⟩
  by_contra hlonger
  rw [List.length_append, List.length_singleton, Nat.not_le, Nat.lt_succ_iff] at hlonger
  -- Shorter tokens stand at the start of `before`, and there nothing closes too much.
  have hinside : _ <+: before := List.prefix_of_prefix_length_le hother ⟨_, rfl⟩ hlonger
  exact hclosable.not_overclosed ⟨_, hinside, hover⟩

/-! ## The walk over a piece -/

namespace Console

/-- The characters that matter to the walk over an entry, line breaks aside. -/
def marks : List Char := ['"', '#', '(', '[', '\x7b', ')', ']', '\x7d']

variable {c : Char} {cs rest : List Char}

attribute [local simp] balanceFrom

/-- A class of characters without marks has none of them as a member. -/
theorem not_mem_marks {p : Char → Bool} (hp : marks.any p = false) (h : p c) : c ∉ marks := by
  intro hc
  rw [List.any_eq_true.mpr ⟨c, hc, h⟩] at hp
  cases hp

/-- A quote in code opens a string. -/
theorem balanceFrom_quote (offset depth : Nat) :
    balanceFrom .code offset depth ('"' :: rest) =
      balanceFrom .string (offset + '"'.utf8Size) depth rest := by
  simp

/-- A hash in code opens a comment. -/
theorem balanceFrom_hash (offset depth : Nat) :
    balanceFrom .code offset depth ('#' :: rest) =
      balanceFrom .comment (offset + '#'.utf8Size) depth rest := by
  simp

/-- An opening bracket in code is counted. -/
theorem balanceFrom_opening (h : c = '(' ∨ c = '[' ∨ c = '\x7b') (offset depth : Nat) :
    balanceFrom .code offset depth (c :: rest) =
      balanceFrom .code (offset + c.utf8Size) (depth + 1) rest := by
  rcases h with rfl | rfl | rfl <;> simp

/-- A closing bracket in code is counted against an open one. -/
theorem balanceFrom_closing (h : c = ')' ∨ c = ']' ∨ c = '\x7d') (offset depth : Nat) :
    balanceFrom .code offset (depth + 1) (c :: rest) =
      balanceFrom .code (offset + c.utf8Size) depth rest := by
  rcases h with rfl | rfl | rfl <;> simp

/-- A closing bracket in code ends the count if none is open. -/
theorem balanceFrom_unmatched (h : c = ')' ∨ c = ']' ∨ c = '\x7d') (offset : Nat) :
    balanceFrom .code offset 0 (c :: rest) = .unmatched c offset := by
  rcases h with rfl | rfl | rfl <;> simp

/-- Any other character in code only moves the offset. -/
theorem balanceFrom_other (h : c ∉ marks) (offset depth : Nat) :
    balanceFrom .code offset depth (c :: rest) =
      balanceFrom .code (offset + c.utf8Size) depth rest := by
  simp only [marks, List.mem_cons, List.not_mem_nil, or_false, not_or] at h
  simp [h]

/-- Other characters only move the walk on. -/
theorem balanceFrom_plain (h : ∀ c ∈ cs, c ∉ marks) (offset depth : Nat) :
    balanceFrom .code offset depth (cs ++ rest) =
      balanceFrom .code (offset + Text.byteLength cs) depth rest := by
  induction cs generalizing offset with
  | nil => rfl
  | cons c cs ih =>
    obtain ⟨hc, hcs⟩ := List.forall_mem_cons.mp h
    rw [List.cons_append, balanceFrom_other hc, ih hcs, Text.byteLength_cons, Nat.add_assoc]

/-- Inside a string nothing counts up to the closing quote. -/
theorem balanceFrom_string (h : '"' ∉ cs) (offset depth : Nat) :
    balanceFrom .string offset depth (cs ++ rest) =
      balanceFrom .string (offset + Text.byteLength cs) depth rest := by
  induction cs generalizing offset with
  | nil => rfl
  | cons c cs ih =>
    obtain ⟨hc, hcs⟩ := List.ne_and_not_mem_of_not_mem_cons h
    rw [List.cons_append, balanceFrom, Text.byteLength_cons, ← Nat.add_assoc, ← ih hcs]
    simp [Ne.symm hc]

/-- Inside a comment nothing counts up to the line break. -/
theorem balanceFrom_comment (h : '\n' ∉ cs) (offset depth : Nat) :
    balanceFrom .comment offset depth (cs ++ rest) =
      balanceFrom .comment (offset + Text.byteLength cs) depth rest := by
  induction cs generalizing offset with
  | nil => rfl
  | cons c cs ih =>
    obtain ⟨hc, hcs⟩ := List.ne_and_not_mem_of_not_mem_cons h
    rw [List.cons_append, balanceFrom, Text.byteLength_cons, ← Nat.add_assoc, ← ih hcs]
    simp [Ne.symm hc]

/-- At the end of a line it does not matter whether there is a comment on it. -/
theorem balanceFrom_lineEnds (h : LineEnds rest) (offset depth : Nat) :
    balanceFrom .comment offset depth rest = balanceFrom .code offset depth rest := by
  cases rest with
  | nil => simp
  | cons c rest =>
    obtain rfl : c = '\n' := h c rfl
    simp

end Console

/-- Whether a piece is neither a bracket nor a string without an end. -/
def Piece.Role.isPlain : Piece.Role → Bool
  | .unterminated => false
  | .token kind => !kind.isBracket
  | _ => true

/-- What the first piece of a text does to the walk over the text. -/
inductive Clears (text : List Char) : Piece.Cut → Prop
  | unterminated {p : Piece} : p.role = .unterminated →
      (∀ offset depth, Console.balanceFrom .code offset depth text = .opened) → Clears text (p, [])
  | bracket {c : Char} {s : Symbol} {rest : List Char} : Piece.singleSymbol? c = some s →
      (Kind.symbol s).isBracket → text = c :: rest → Clears text (⟨.token (.symbol s), [c]⟩, rest)
  | plain {p : Piece} {rest : List Char} : p.role.isPlain →
      (∀ offset depth, Console.balanceFrom .code offset depth text =
        Console.balanceFrom .code (offset + Text.byteLength p.text) depth rest) →
      Clears text (p, rest)

namespace Piece

open Console

variable {c d : Char} {s : Symbol}

/-- The marks other than the quote and the hash are brackets for the scanner too. -/
theorem exists_bracket_of_mem_marks (h : c ∈ marks) (hquote : c ≠ '"') (hhash : c ≠ '#') :
    ∃ s, singleSymbol? c = some s ∧ (Kind.symbol s).isBracket := by
  simp only [marks, List.mem_cons, List.not_mem_nil, or_false] at h
  rcases h with rfl | rfl | rfl | rfl | rfl | rfl | rfl | rfl
  · exact absurd rfl hquote
  · exact absurd rfl hhash
  all_goals exact ⟨_, rfl, rfl⟩

/-- The console counts the symbols that open. -/
theorem opening_of_singleSymbol? (h : singleSymbol? c = some s) (hopens : s.opens) :
    c = '(' ∨ c = '[' ∨ c = '\x7b' := by
  unfold singleSymbol? at h
  split at h <;> cases h <;> first | decide | cases hopens

/-- The console counts the symbols that close. -/
theorem closing_of_singleSymbol? (h : singleSymbol? c = some s) (hcloses : s.closes) :
    c = ')' ∨ c = ']' ∨ c = '\x7d' := by
  unfold singleSymbol? at h
  split at h <;> cases h <;> first | decide | cases hcloses

/-- No bracket has two characters, and no symbol of two characters has a mark in it. -/
theorem plain_of_doubleSymbol? (h : doubleSymbol? c d = some s) :
    (Kind.symbol s).isBracket = false ∧ ∀ e ∈ [c, d], e ∉ marks := by
  unfold doubleSymbol? at h
  split at h <;> cases h <;> exact ⟨rfl, by simp [marks]⟩

end Piece

namespace Clears

open Piece Console

variable {c : Char} {cs : List Char}

/-- A piece without marks only moves the walk on. -/
theorem of_plain {p : Piece} {rest : List Char} (happend : p.text ++ rest = cs)
    (hrole : p.role.isPlain) (htext : ∀ d ∈ p.text, d ∉ marks) : Clears cs (p, rest) := by
  subst happend
  exact .plain hrole fun offset depth => balanceFrom_plain htext offset depth

/-- A run of characters among which there is no mark is passed over without counting. -/
theorem cutRun {role : List Char → Role} {p : Char → Bool} (hrole : ∀ text, (role text).isPlain)
    (hp : marks.any p = false) (hc : c ∉ marks) :
    Clears (c :: cs) (Piece.cutRun role p c cs) := by
  refine of_plain (cutRun_append role p c cs) (hrole _) ?_
  exact List.forall_mem_cons.mpr ⟨hc, fun d hd => not_mem_marks hp (of_mem_takeWhile hd)⟩

/-- A comment is passed over as one, since both sides let it end in front of the line break. -/
theorem comment : Clears ('#' :: cs) (Piece.cutRun (fun _ => .comment) (· ≠ '\n') '#' cs) := by
  refine .plain rfl fun offset depth => ?_
  have hinside : '\n' ∉ cs.takeWhile (· ≠ '\n') := by
    intro hmem
    have hne := of_mem_takeWhile hmem
    simp at hne
  have hends : LineEnds (cs.dropWhile (· ≠ '\n')) := by
    intro d hd
    simpa using runEnds_dropWhile (· ≠ '\n') cs d hd
  calc balanceFrom .code offset depth ('#' :: cs)
      = balanceFrom .comment (offset + '#'.utf8Size) depth
          (cs.takeWhile (· ≠ '\n') ++ cs.dropWhile (· ≠ '\n')) := by
        rw [List.takeWhile_append_dropWhile, balanceFrom_hash]
    _ = balanceFrom .code (offset + Text.byteLength ('#' :: cs.takeWhile (· ≠ '\n'))) depth
          (cs.dropWhile (· ≠ '\n')) := by
        rw [balanceFrom_comment hinside, balanceFrom_lineEnds hends, Text.byteLength_cons,
          Nat.add_assoc]

/-- A string is passed over up to its closing quote, and without one the console is left inside it.
-/
theorem string : Clears ('"' :: cs) (cutString cs) := by
  have hinside : '"' ∉ cs.takeWhile (· ≠ '"') := by
    intro hmem
    have hne := of_mem_takeWhile hmem
    simp at hne
  have hwalk (offset depth : Nat) : balanceFrom .code offset depth ('"' :: cs) =
      balanceFrom .string (offset + '"'.utf8Size + Text.byteLength (cs.takeWhile (· ≠ '"'))) depth
        (cs.dropWhile (· ≠ '"')) := by
    rw [← balanceFrom_string hinside, List.takeWhile_append_dropWhile, balanceFrom_quote]
  unfold cutString
  split
  next hend =>
    refine .unterminated rfl fun offset depth => ?_
    rw [hwalk, hend]
    simp [balanceFrom]
  next quote rest hend =>
    have hquote : quote = '"' := by
      have hhead := List.head?_dropWhile_not (· ≠ '"') cs
      rw [hend] at hhead
      simpa using hhead
    subst hquote
    refine .plain rfl fun offset depth => ?_
    rw [hwalk, hend, balanceFrom]
    simp [Nat.add_assoc]

/-- A number literal holds no mark. -/
theorem number (hc : c.isDigit) : Clears (c :: cs) (cutNumber c cs) := by
  have hdigit : marks.any Char.isDigit = false := by decide
  have hdigits : ∀ d ∈ c :: cs.takeWhile Char.isDigit, d ∉ marks :=
    List.forall_mem_cons.mpr ⟨not_mem_marks hdigit hc,
      fun d hd => not_mem_marks hdigit (of_mem_takeWhile hd)⟩
  refine of_plain (cutNumber_append c cs) ?_ ?_
  · simp only [numberRole]
    split <;> rfl
  · dsimp only
    split
    · exact hdigits
    · refine List.forall_mem_append.mpr ⟨hdigits, List.forall_mem_cons.mpr ⟨by decide, ?_⟩⟩
      exact fun d hd => not_mem_marks hdigit (isDigit_of_mem_fraction hd)

/-- A symbol of one character is a bracket on both sides or on neither. -/
theorem single (hquote : c ≠ '"') (hhash : c ≠ '#') : Clears (c :: cs) (cutSingle c cs) := by
  unfold cutSingle
  cases hsymbol : singleSymbol? c with
  | some s =>
    by_cases hbracket : (Kind.symbol s).isBracket
    · exact .bracket hsymbol hbracket rfl
    · refine of_plain rfl (by simpa [Role.isPlain] using hbracket) ?_
      refine List.forall_mem_singleton.mpr fun hmark => hbracket ?_
      obtain ⟨s', hsymbol', hbracket'⟩ := exists_bracket_of_mem_marks hmark hquote hhash
      rw [hsymbol, Option.some.injEq] at hsymbol'
      rwa [hsymbol']
  | none =>
    refine of_plain rfl rfl (List.forall_mem_singleton.mpr fun hmark => ?_)
    obtain ⟨s, hsymbol', -⟩ := exists_bracket_of_mem_marks hmark hquote hhash
    rw [hsymbol] at hsymbol'
    cases hsymbol'

/-- Symbols of two characters hold no bracket. -/
theorem symbol (hquote : c ≠ '"') (hhash : c ≠ '#') : Clears (c :: cs) (cutSymbol c cs) := by
  cases cs with
  | nil => exact single hquote hhash
  | cons d cs =>
    cases hdouble : doubleSymbol? c d with
    | none =>
      simp only [cutSymbol, hdouble]
      exact single hquote hhash
    | some s =>
      obtain ⟨hbracket, htext⟩ := plain_of_doubleSymbol? hdouble
      simp only [cutSymbol, hdouble]
      exact of_plain rfl (by simp [Role.isPlain, hbracket]) htext

end Clears

/-- Both ways to read a text agree on its first piece. -/
theorem clears_cut (c : Char) (cs : List Char) : Clears (c :: cs) (Piece.cut c cs) := by
  unfold Piece.cut
  split
  next hgap => exact .cutRun (fun _ => rfl) (by decide) (Console.not_mem_marks (by decide) hgap)
  split
  next hhash =>
    subst hhash
    exact .comment
  next hhash =>
  split
  next hbreak =>
    subst hbreak
    refine .of_plain rfl rfl (List.forall_mem_singleton.mpr (by decide))
  split
  next hquote =>
    subst hquote
    exact .string
  next hquote =>
  split
  next hword =>
    refine .cutRun (fun text => ?_) (by decide) (Console.not_mem_marks (by decide) hword)
    unfold Piece.wordKind
    split <;> rfl
  split
  next hdigit => exact .number hdigit
  next => exact .symbol hquote hhash

/-! ## Whole texts -/

/-- What the walk over an entry says, compared with what its brackets say and with whether it leaves
a string open. -/
inductive Agrees (unterminated : Prop) : Except Token Nat → Console.Balance → Prop
  | unmatched {t : Token} {c : Char} : t.lexeme = String.singleton c →
      Agrees unterminated (.error t) (.unmatched c t.span.start)
  | opened {n : Nat} : unterminated ∨ 0 < n → Agrees unterminated (.ok n) .opened
  | closed : ¬unterminated → Agrees unterminated (.ok 0) .closed

/-- Whether one of the errors is about a string without an end. -/
def LeavesStringOpen (errors : List LexicalError) : Prop :=
  ∃ e ∈ errors, e.fault = .unterminatedString

/-- A string is left open if the first error says so or one of the others does. -/
theorem leavesStringOpen_cons {e : LexicalError} {errors : List LexicalError} :
    LeavesStringOpen (e :: errors) ↔ e.fault = .unterminatedString ∨ LeavesStringOpen errors := by
  simp [LeavesStringOpen]

namespace Layout

variable {s : Layout} {p : Piece}

/-- A piece that is neither a bracket nor a string without an end is no such token or error. -/
theorem fate_plain (hrole : p.role.isPlain) :
    (∀ t, (s.fate p).token? = some t → t.kind.isBracket = false) ∧
      ∀ e, (s.fate p).fault? = some e → e.fault ≠ .unterminatedString := by
  obtain ⟨role, text⟩ := p
  cases role with
  | token kind =>
    by_cases hkind : kind = .newline
    · subst hkind
      by_cases hzero : s.nesting = 0
      · simp [fate_newline hzero, Fate.token?, Fate.fault?, Kind.isBracket, Kind.opens, Kind.closes]
      · simp [fate_joined hzero, Fate.token?, Fate.fault?]
    · simpa [fate_token hkind, Fate.token?, Fate.fault?, Piece.Role.isPlain] using hrole
  | unterminated => cases hrole
  | _ => simp [fate, Fate.token?, Fate.fault?]

end Layout

/-- A token that may be missing and is no bracket does not count. -/
theorem openBehind_option {found : Option Token}
    (h : ∀ t, found = some t → t.kind.isBracket = false) (depth : Nat) (ts : List Token) :
    openBehind depth (found.toList ++ ts) = openBehind depth ts := by
  cases found with
  | none => rfl
  | some t => exact openBehind_plain (h t rfl) depth ts

/-- An error that may be missing and is another one does not count. -/
theorem leavesStringOpen_option {found : Option LexicalError}
    (h : ∀ e, found = some e → e.fault ≠ .unterminatedString) (errors : List LexicalError) :
    LeavesStringOpen (found.toList ++ errors) ↔ LeavesStringOpen errors := by
  cases found with
  | none => rfl
  | some e => exact leavesStringOpen_cons.trans (or_iff_right (h e rfl))

/-- Both ways to read a text count a bracket in the same way. -/
theorem Agrees.bracket {unterminated : Prop} {c : Char} {s : Symbol} {t : Token} {ts : List Token}
    {rest : List Char} (hsymbol : Piece.singleSymbol? c = some s)
    (hbracket : (Kind.symbol s).isBracket) (hkind : t.kind = .symbol s)
    (hlexeme : t.lexeme = String.singleton c)
    (hrest : ∀ depth, Agrees unterminated (openBehind depth ts)
      (Console.balanceFrom .code (t.span.start + c.utf8Size) depth rest)) (depth : Nat) :
    Agrees unterminated (openBehind depth (t :: ts))
      (Console.balanceFrom .code t.span.start depth (c :: rest)) := by
  rw [← hkind] at hbracket
  by_cases hopens : t.kind.opens
  · have hchar := Piece.opening_of_singleSymbol? hsymbol (by rwa [hkind] at hopens)
    rw [openBehind_opens hopens, Console.balanceFrom_opening hchar]
    exact hrest (depth + 1)
  · have hcloses : t.kind.closes := by simpa [Kind.isBracket, hopens] using hbracket
    have hchar := Piece.closing_of_singleSymbol? hsymbol (by rwa [hkind] at hcloses)
    rw [Bool.not_eq_true] at hopens
    cases depth with
    | zero =>
      rw [openBehind_unmatched hcloses hopens, Console.balanceFrom_unmatched hchar]
      exact .unmatched hlexeme
    | succ depth =>
      rw [openBehind_closes hcloses hopens, Console.balanceFrom_closing hchar]
      exact hrest depth

/-- The walk over a text agrees with the regions that the text is scanned as. -/
theorem agrees_regions (cs : List Char) (s : Layout) (depth : Nat) :
    Agrees (LeavesStringOpen (regionFaults (s.regions (pieces cs))))
      (openBehind depth (regionTokens (s.regions (pieces cs))))
      (Console.balanceFrom .code s.offset depth cs) := by
  induction h : cs.length using Nat.strongRecOn generalizing cs s depth with
  | _ n ih =>
    cases cs with
    | nil =>
      rw [pieces_nil]
      cases depth with
      | zero => exact .closed (by simp [Layout.regions, regionFaults, LeavesStringOpen])
      | succ depth => exact .opened (.inr (Nat.succ_pos depth))
    | cons c cs =>
      have hclears := clears_cut c cs
      have hrest (depth : Nat) := ih _ (h ▸ Piece.length_cut_lt c cs) (Piece.cut c cs).2
        (s.next (Piece.cut c cs).1) depth rfl
      rw [Layout.offset_next] at hrest
      rw [pieces_cons, Layout.regions, regionTokens_cons, regionFaults_cons]
      generalize Piece.cut c cs = cut at hclears hrest
      cases hclears with
      | @unterminated p hrole hopened =>
        obtain ⟨role, text⟩ := p
        cases hrole
        rw [hopened, pieces_nil]
        exact .opened (.inl (leavesStringOpen_cons.mpr (.inl rfl)))
      | @bracket c symbol rest hsymbol hbracket htext =>
        cases htext
        exact Agrees.bracket hsymbol hbracket rfl rfl hrest depth
      | plain hrole hwalk =>
        obtain ⟨htoken, hfault⟩ := Layout.fate_plain (s := s) hrole
        rw [openBehind_option htoken, leavesStringOpen_option hfault, hwalk]
        exact hrest depth

/-- Brackets stand in the text. -/
theorem Kind.not_isSynthesized_of_isBracket {kind : Kind} (h : kind.isBracket) :
    kind.isSynthesized = false := by
  cases kind with
  | symbol => rfl
  | _ => cases h

/-- Brackets are tokens with text. -/
theorem brackets_filter_hasText (ts : List Token) :
    brackets (ts.filter Token.hasText) = brackets ts := by
  rw [brackets, brackets, List.filter_filter]
  refine List.filter_congr fun t _ => ?_
  by_cases h : t.kind.isBracket
  · simp [h, Token.hasText, Kind.not_isSynthesized_of_isBracket h]
  · simp [h]

/-- Leaving out the errors about indentation leaves open strings as they are. -/
theorem leavesStringOpen_filter (errors : List LexicalError) :
    LeavesStringOpen (errors.filter (·.fault != .inconsistentDedent)) ↔
      LeavesStringOpen errors := by
  constructor
  · rintro ⟨e, he, hfault⟩
    exact ⟨e, List.mem_of_mem_filter he, hfault⟩
  · rintro ⟨e, he, hfault⟩
    exact ⟨e, List.mem_filter.mpr ⟨he, by simp [hfault]⟩, hfault⟩

/-- The walk over an entry agrees with the scan of the entry. -/
theorem agrees_scan (input : String) :
    Agrees (LeavesStringOpen (scan input).errors)
      (openBehind 0 (bracketsOf input)) (Console.balance input.toList) := by
  have hcovers := covers_scan input
  have hagrees := agrees_regions input.toList {} 0
  rwa [hcovers.tokens, hcovers.faults, leavesStringOpen_filter, ← openBehind_brackets,
    brackets_filter_hasText] at hagrees

namespace Console

variable {input : List Char}

/-- An unmatched bracket is judged before anything else. -/
theorem judge_eq_unmatched {c : Char} {offset : Nat} :
    judge input = .unmatched c offset ↔ balance input = .unmatched c offset := by
  unfold judge
  split
  next h => simp [h]
  next h => simp [h]
  next h =>
    rw [h]
    split <;> simp

/-- An input that leaves something open is not complete, whatever its lines end in. -/
theorem judge_of_opened (h : balance input = .opened) : judge input = .incomplete := by
  rw [judge, h]

/-- The console and the scanner agree on brackets, strings and comments. The console finds a bracket
that closes nothing exactly if some bracket tokens at the start of the scan close more than they
open, and names the last token of the shortest such. Otherwise an entry with an open string or an
open bracket is incomplete, and a complete entry has neither. -/
theorem judge_iff_scan (input : String) :
    ((∃ c offset, judge input.toList = .unmatched c offset) ↔
      ∃ front, front <+: bracketsOf input ∧ Overclosed front) ∧
    (∀ c offset, judge input.toList = .unmatched c offset →
      ∃ before t, ShortestOverclosed (bracketsOf input) (before ++ [t]) ∧
        t.lexeme = String.singleton c ∧ t.span.start = offset ∧
        unmatchedMessage c offset =
          "  - Unmatched '" ++ t.lexeme ++ "' at position " ++ toString t.span.start) ∧
    ((¬∃ front, front <+: bracketsOf input ∧ Overclosed front) →
      LeavesStringOpen (scan input).errors ∨
        closings (bracketsOf input) < openings (bracketsOf input) →
      judge input.toList = .incomplete) ∧
    (judge input.toList = .complete →
      ¬LeavesStringOpen (scan input).errors ∧
        openings (bracketsOf input) = closings (bracketsOf input)) := by
  have hagrees := agrees_scan input
  generalize hopen : openBehind 0 (bracketsOf input) = counted at hagrees
  generalize hbalance : balance input.toList = walked at hagrees
  cases hagrees with
  | unmatched hlexeme =>
    have hjudge := judge_eq_unmatched.mpr hbalance
    obtain ⟨before, hshortest⟩ := exists_shortestOverclosed hopen
    have hover : ∃ front, front <+: bracketsOf input ∧ Overclosed front :=
      ⟨_, hshortest.isPrefix, hshortest.overclosed⟩
    refine ⟨iff_of_true ⟨_, _, hjudge⟩ hover, fun c offset hc => ?_, absurd hover,
      by simp [hjudge]⟩
    obtain ⟨rfl, rfl⟩ := Verdict.unmatched.inj (hjudge.symm.trans hc)
    exact ⟨before, _, hshortest, hlexeme, rfl, by rw [hlexeme]; rfl⟩
  | opened hsome =>
    have hjudge := judge_of_opened hbalance
    have hover := (openBehind_eq_ok hopen).1.not_overclosed
    exact ⟨iff_of_false (by simp [hjudge]) hover, by simp [hjudge], fun _ _ => hjudge,
      by simp [hjudge]⟩
  | closed hterminated =>
    have hjudge (c : Char) (offset : Nat) : judge input.toList ≠ .unmatched c offset := by
      rw [Ne, judge_eq_unmatched, hbalance]
      simp
    obtain ⟨hclosable, htotal⟩ := openBehind_eq_ok hopen
    have hequal : openings (bracketsOf input) = closings (bracketsOf input) := by
      simpa using htotal.symm
    refine ⟨iff_of_false (by simp [hjudge]) hclosable.not_overclosed,
      fun c offset hc => absurd hc (hjudge c offset), ?_, fun _ => ⟨hterminated, hequal⟩⟩
    rintro - (hstring | hmore)
    · exact absurd hstring hterminated
    · exact absurd hequal (Nat.ne_of_gt hmore)

end Console

end Offside
