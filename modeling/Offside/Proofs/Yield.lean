import Offside.Proofs.Carrying
import Offside.Proofs.Writing

/-!
# A clean parse accounts for every token

Where the grammar derives a program, the tokens it takes are the ones the program is written as, in
the same order and with nothing between them but ends of lines. The one exception is the literal
zero, which also stands for signs in front of a zero. So a parse without errors drops no token,
repeats none and moves none.
-/

namespace Offside

/-- Whether a place is one for the end of a line. -/
def Slot.isLineEnd : Slot → Bool
  | .any .newline => true
  | _ => false

/-- The places of a program apart from the ends of lines, in the order of the grammar. -/
def yieldOf (program : List Stmt) : List Slot := (writeEach program).filter (!·.isLineEnd)

/-- Tokens that account for some places, one by one and in the same order. Only the literal zero may
stand for several tokens: for signs in front of a number that is zero. -/
inductive Accounts : List Slot → List Token → Prop
  | nil : Accounts [] []
  | token {slot : Slot} {slots : List Slot} {t : Token} {ts : List Token} : slot.Fits t →
    Accounts slots ts → Accounts (slot :: slots) (t :: ts)
  | zero {slots : List Slot} {signs ts : List Token} {t : Token} {value : Float} : signs ≠ [] →
    (∀ sign ∈ signs, sign.kind = .symbol .minus) → t.kind = .number value → value == 0.0 →
    Accounts slots ts → Accounts (.any (.number 0.0) :: slots) (signs ++ t :: ts)

/-- Two runs of slots account for their tokens in order. -/
theorem Accounts.append {a b : List Slot} {ts us : List Token} (h : Accounts a ts)
    (h' : Accounts b us) : Accounts (a ++ b) (ts ++ us) := by
  induction h with
  | nil => exact h'
  | token hfits _ ih => exact .token hfits ih
  | zero hsigns hminus hkind hzero _ ih =>
    rw [List.cons_append, List.append_assoc, List.cons_append]
    exact .zero hsigns hminus hkind hzero ih

/-- One more sign in front of what a literal zero stands for. -/
theorem Accounts.negate {value : Float} {ts : List Token} {sign : Token}
    (h : Accounts [.any (.number value)] ts) (hsign : sign.kind = .symbol .minus)
    (hzero : value == 0.0) : Accounts [.any (.number 0.0)] (sign :: ts) := by
  cases h with
  | @token _ _ t _ hfits hrest =>
    cases hrest
    have hsigns : ∀ u ∈ [sign], u.kind = .symbol .minus := by simpa using hsign
    have hfolded : Accounts [.any (.number 0.0)] ([sign] ++ [t]) :=
      .zero (by simp) hsigns hfits hzero .nil
    exact hfolded
  | @zero _ signs _ t _ _ hminus hkind hvalue hrest =>
    have hsigns : ∀ u ∈ sign :: signs, u.kind = .symbol .minus :=
      List.forall_mem_cons.mpr ⟨hsign, hminus⟩
    rw [← List.cons_append]
    exact .zero (by simp) hsigns hkind hvalue hrest

/-- The tokens from `ts` up to `rest`, ends of lines apart, account for some places. -/
def Yields (slots : List Slot) (ts rest : List Token) : Prop :=
  ∃ taken, ts = taken ++ rest ∧
    Accounts (slots.filter (!·.isLineEnd)) (taken.filter (·.kind != .newline))

namespace Yields

variable {slots more : List Slot} {slot : Slot} {ts mid rest : List Token} {t : Token} {kind : Kind}

/-- No slots account for no tokens. -/
theorem nil (ts : List Token) : Yields [] ts ts := ⟨[], rfl, .nil⟩

/-- Two phrases one behind the other account for the tokens of both. -/
theorem append (h : Yields slots ts mid) (h' : Yields more mid rest) :
    Yields (slots ++ more) ts rest := by
  obtain ⟨taken, rfl, haccounts⟩ := h
  obtain ⟨taken', rfl, haccounts'⟩ := h'
  refine ⟨taken ++ taken', (List.append_assoc ..).symm, ?_⟩
  rw [List.filter_append, List.filter_append]
  exact haccounts.append haccounts'

/-- A token in its place, in front of others. -/
theorem place (hfits : slot.Fits t) (hkind : t.kind ≠ .newline) (h : Yields slots ts rest) :
    Yields (slot :: slots) (t :: ts) rest := by
  obtain ⟨taken, rfl, haccounts⟩ := h
  have hslot : slot.isLineEnd = false := by
    cases slot with
    | exactly u => rfl
    | any kind =>
      have hne : kind ≠ .newline := fun heq => hkind (hfits.trans heq)
      cases kind with
      | newline => exact absurd rfl hne
      | _ => rfl
  refine ⟨t :: taken, rfl, ?_⟩
  rw [List.filter_cons_of_pos (by simp [hslot]), List.filter_cons_of_pos (by simpa using hkind)]
  exact .token hfits haccounts

/-- A token that the tree keeps. -/
theorem kept (hkind : t.kind = kind) (hne : kind ≠ .newline) (h : Yields slots ts rest) :
    Yields (.exactly t :: slots) (t :: ts) rest :=
  place rfl (hkind ▸ hne) h

/-- A token of which only the kind is fixed. -/
theorem fixed (hkind : t.kind = kind) (hne : kind ≠ .newline) (h : Yields slots ts rest) :
    Yields (.any kind :: slots) (t :: ts) rest :=
  place hkind (hkind ▸ hne) h

/-- An end of a line is taken whether or not there is a place for it. -/
theorem newline (hkind : t.kind = .newline) (h : Yields slots ts rest) :
    Yields slots (t :: ts) rest := by
  obtain ⟨taken, rfl, haccounts⟩ := h
  refine ⟨t :: taken, rfl, ?_⟩
  rwa [List.filter_cons_of_neg (by simp [hkind])]

/-- The place of an end of a line needs no token. -/
theorem lineEnd (h : Yields slots ts rest) : Yields (.any .newline :: slots) ts rest := by
  obtain ⟨taken, hts, haccounts⟩ := h
  refine ⟨taken, hts, ?_⟩
  rwa [List.filter_cons_of_neg (by simp [Slot.isLineEnd])]

/-- Newlines that are dropped need no slots. -/
theorem dropNewlines (ts : List Token) : Yields [] ts (dropNewlines ts) := by
  induction ts with
  | nil => exact nil []
  | cons t ts ih =>
    by_cases hkind : t.kind = .newline
    · rw [dropNewlines_newline hkind]
      exact newline hkind ih
    · rw [dropNewlines_of_not_leads (by simpa using hkind)]
      exact nil _

/-- What fills a line, and the ends of lines behind it. -/
theorem line (h : Yields slots ts rest) :
    Yields (slots ++ [.any .newline]) ts (Offside.dropNewlines rest) :=
  h.append (lineEnd (dropNewlines rest))

/-- What stands between two brackets. -/
theorem enclosed {opening closing : Token} {o c : Symbol} (hopening : opening.kind = .symbol o)
    (h : Yields slots ts (closing :: rest)) (hclosing : closing.kind = .symbol c) :
    Yields (.symbol o :: (slots ++ [.symbol c])) (opening :: ts) rest := by
  have hend : Yields [.symbol c] (closing :: rest) rest := fixed hclosing (by simp) (nil rest)
  exact fixed hopening (by simp) (h.append hend)

end Yields

namespace Expr

/-- A literal is written as a token of its own kind. -/
theorem literal_kind {kind : Kind} {value : Literal} (h : kind.literal? = some value) :
    kind = value.kind := by
  unfold Kind.literal? at h
  split at h <;> cases h <;> rfl

/-- Joining two operands writes the operator between them. -/
theorem write_join {i : Nat} {level : Level} (h : levels[i]? = some level) (left right : Expr)
    (operator : Token) :
    (level.join left operator right).write = left.write ++ .exactly operator :: right.write := by
  have hmem := List.mem_of_getElem? h
  simp only [levels, List.mem_cons, List.not_mem_nil, or_false] at hmem
  rcases hmem with rfl | rfl | rfl | rfl | rfl | rfl <;> simp [write]

/-- A prefix operator is either kept or folded into the zero behind it. -/
theorem yields_applyPrefix {operator : Token} {e : Expr} {ts rest : List Token}
    (hkind : operator.kind ∈ prefixOperators) (h : Yields e.write ts rest) :
    Yields (applyPrefix operator e).write (operator :: ts) rest := by
  have hne : operator.kind ≠ .newline := by
    intro heq
    simp [heq, prefixOperators] at hkind
  have hunary : Yields (Expr.unary operator e).write (operator :: ts) rest := by
    rw [write]
    exact .kept rfl hne h
  unfold applyPrefix
  split
  next value =>
    split
    next hfold =>
      obtain ⟨hminus, hzero⟩ := hfold
      obtain ⟨taken, rfl, haccounts⟩ := h
      refine ⟨operator :: taken, rfl, ?_⟩
      rw [List.filter_cons_of_pos (by simpa using hne)]
      exact haccounts.negate hminus hzero
    next => exact hunary
  next => exact hunary

/-- What is said about the tokens of a phrase. -/
def Phrase.Accounted (ts rest : List Token) : Phrase → Prop
  | .whole e | .operation _ e | .signed e | .power e | .primary e => Yields e.write ts rest
  | .chain _ left e => ∃ behind, e.write = left.write ++ behind ∧ Yields behind ts rest
  | .items _ es => Yields (writeItems es) ts rest
  | .more es => Yields (writeMore es) ts rest

/-- Every derived expression accounts for its tokens. -/
theorem Derives.accounted {phrase : Phrase} {ts rest : List Token} (h : Derives phrase ts rest) :
    phrase.Accounted ts rest := by
  induction h with
  | operation _ _ ih => exact ih
  | assign _ hsign _ ih ih' =>
    simp only [Phrase.Accounted, write] at ih ih' ⊢
    exact ih.append (.fixed hsign (by simp) ih')
  | level _ _ _ ih ih' =>
    obtain ⟨behind, heq, hbehind⟩ := ih'
    simp only [Phrase.Accounted] at ih ⊢
    rw [heq]
    exact ih.append hbehind
  | tightest _ _ ih => exact ih
  | chainEnd _ _ => exact ⟨[], (List.append_nil _).symm, .nil _⟩
  | @chainStep _ _ left right _ operator _ _ _ hlevel hkind _ _ ih ih' =>
    obtain ⟨behind, heq, hbehind⟩ := ih'
    refine ⟨.exactly operator :: (right.write ++ behind), ?_, ?_⟩
    · rw [heq, write_join hlevel, List.append_assoc, List.cons_append]
    · exact .kept rfl (ne_newline_of_mem_operators hlevel hkind) (Yields.append ih hbehind)
  | sign hkind _ ih => exact yields_applyPrefix hkind ih
  | unsigned _ ih => exact ih
  | base _ _ ih => exact ih
  | raise _ hkind _ ih ih' =>
    simp only [Phrase.Accounted, write] at ih ih' ⊢
    exact ih.append (.kept hkind (by simp) ih')
  | @literal _ value _ hvalue =>
    have hne : value.kind ≠ .newline := by
      cases value with
      | boolean b => cases b <;> simp [Literal.kind]
      | _ => simp [Literal.kind]
    simp only [Phrase.Accounted, write]
    exact .fixed (literal_kind hvalue) hne (.nil _)
  | grouping hopening _ hclosing ih =>
    simp only [Phrase.Accounted, write] at ih ⊢
    exact .enclosed hopening ih hclosing
  | list hopening _ hclosing ih =>
    simp only [Phrase.Accounted, write] at ih ⊢
    exact .enclosed hopening ih hclosing
  | «variable» hname _ _ =>
    simp only [Phrase.Accounted, write]
    exact .kept hname (by simp) (.nil _)
  | element hname hopening _ hclosing ih =>
    simp only [Phrase.Accounted, write] at ih ⊢
    exact .kept hname (by simp) (.enclosed hopening ih hclosing)
  | slice hname hopening _ hcolon _ hclosing ih ih' =>
    simp only [Phrase.Accounted, write] at ih ih' ⊢
    have hinside := ih.append (.fixed hcolon (by simp) ih')
    simpa using Yields.kept hname (by simp) (.enclosed hopening hinside hclosing)
  | stride hname hopening _ hcolon _ hcolon' _ hclosing ih ih' ih'' =>
    simp only [Phrase.Accounted, write] at ih ih' ih'' ⊢
    have htail := ih'.append (.fixed hcolon' (by simp) ih'')
    have hinside := ih.append (.fixed hcolon (by simp) htail)
    simpa using Yields.kept hname (by simp) (.enclosed hopening hinside hclosing)
  | call hname hopening _ hclosing ih =>
    simp only [Phrase.Accounted, write] at ih ⊢
    exact .kept hname (by simp) (.enclosed hopening ih hclosing)
  | noItems _ =>
    simp only [Phrase.Accounted, writeItems]
    exact .nil _
  | items _ _ _ ih ih' =>
    simp only [Phrase.Accounted, writeItems] at ih ih' ⊢
    exact ih.append ih'
  | noMore _ =>
    simp only [Phrase.Accounted, writeMore]
    exact .nil _
  | more hcomma _ _ ih ih' =>
    simp only [Phrase.Accounted, writeMore] at ih ih' ⊢
    exact .fixed hcomma (by simp) (ih.append ih')

end Expr

namespace Stmt

/-- The bounds of a loop account for their tokens. -/
theorem DerivesRange.yields {start step : Option Expr} {stop : Expr} {ts rest : List Token}
    (h : DerivesRange start stop step ts rest) :
    Yields (.symbol .leftParen ::
      (Expr.writeItems (start.toList ++ stop :: step.toList) ++ [.symbol .rightParen]))
      ts rest := by
  cases h with
  | stop hopening h hclosing =>
    have hstop : Yields stop.write _ _ := h.accounted
    simpa [Expr.writeItems, Expr.writeMore] using hstop.enclosed hopening hclosing
  | @start _ _ _ start _ _ _ _ hopening h hcomma h' hclosing =>
    have hstart : Yields start.write _ _ := h.accounted
    have hstop : Yields stop.write _ _ := h'.accounted
    have hinside := hstart.append (.fixed hcomma (by simp) hstop)
    simpa [Expr.writeItems, Expr.writeMore] using hinside.enclosed hopening hclosing
  | @step _ _ _ _ start _ step _ _ _ _ hopening h hcomma h' hcomma' h'' hclosing =>
    have hstart : Yields start.write _ _ := h.accounted
    have hstop : Yields stop.write _ _ := h'.accounted
    have hstep : Yields step.write _ _ := h''.accounted
    have htail := hstop.append (.fixed hcomma' (by simp) hstep)
    have hinside := hstart.append (.fixed hcomma (by simp) htail)
    simpa [Expr.writeItems, Expr.writeMore] using hinside.enclosed hopening hclosing

/-- Further parameters account for their tokens. -/
theorem DerivesNames.yields {names ts rest : List Token} (h : DerivesNames names ts rest) :
    Yields (writeMoreNames names) ts rest := by
  induction h with
  | nil _ => exact .nil _
  | cons hcomma hname _ ih => exact .fixed hcomma (by simp) (.kept hname (by simp) ih)

/-- Parameters account for their tokens. -/
theorem DerivesParameters.yields {parameters ts rest : List Token}
    (h : DerivesParameters parameters ts rest) :
    Yields (.symbol .leftParen :: (writeNames parameters ++ [.symbol .rightParen])) ts rest := by
  cases h with
  | none hopening hclosing => exact .enclosed hopening (.nil _) hclosing
  | some hopening hname h hclosing =>
    exact .enclosed hopening (.kept hname (by simp) h.yields) hclosing

/-- The places that a phrase is written in. -/
def Phrase.write : Phrase → List Slot
  | .one s => s.write
  | .sequence inner => writeEach inner
  | .block inner => writeIndented (writeEach inner)
  | .body inner => writeBody (writeEach inner)
  | .alternative otherwise => otherwise.write

/-- Every derived statement accounts for its tokens. -/
theorem Derives.yields {phrase : Phrase} {ts rest : List Token} (h : Derives phrase ts rest) :
    Yields phrase.write ts rest := by
  induction h with
  | @expression value _ _ h _ =>
    have hvalue : Yields value.write _ _ := h.accounted
    simp only [Phrase.write, Stmt.write]
    exact hvalue.line
  | @assign _ _ value _ _ hname hsign h =>
    have hvalue : Yields value.write _ _ := h.accounted
    simp only [Phrase.write, Stmt.write]
    exact .kept hname (by simp) (.fixed hsign (by simp) hvalue.line)
  | @print _ _ _ value _ _ hkeyword hopening h hclosing =>
    have hvalue : Yields value.write _ _ := h.accounted
    simp only [Phrase.write, Stmt.write]
    have henclosed := (hvalue.enclosed hopening hclosing).line
    simpa using Yields.kept hkeyword (by simp) henclosed
  | returnNothing hkeyword _ =>
    simp only [Phrase.write, Stmt.write]
    exact .kept hkeyword (by simp) (Yields.line (.nil _))
  | @returnValue _ value _ _ hkeyword h =>
    have hvalue : Yields value.write _ _ := h.accounted
    simp only [Phrase.write, Stmt.write]
    exact .kept hkeyword (by simp) hvalue.line
  | nested _ _ ih =>
    simp only [Phrase.write, Stmt.write] at ih ⊢
    exact ih
  | @branch _ condition _ _ _ _ _ _ hkeyword h _ _ ih ih' =>
    have hcondition : Yields condition.write _ _ := h.accounted
    simp only [Phrase.write, Stmt.write] at ih ih' ⊢
    exact .fixed hkeyword (by simp) (hcondition.append (ih.append ih'))
  | @loop _ condition _ _ _ _ hkeyword h _ ih =>
    have hcondition : Yields condition.write _ _ := h.accounted
    simp only [Phrase.write, Stmt.write] at ih ⊢
    exact .fixed hkeyword (by simp) (hcondition.append ih)
  | forRange hkeyword hname hin hrange h _ ih =>
    simp only [Phrase.write, Stmt.write] at ih ⊢
    have hbounds := h.yields.append ih
    have hheader : Yields _ _ _ :=
      .fixed hkeyword (by simp) (.kept hname (by simp) (.fixed hin (by simp)
        (.fixed hrange (by simp) hbounds)))
    simpa using hheader
  | @forEach _ _ _ iterable _ _ _ _ hkeyword hname hin h _ ih =>
    have hiterable : Yields iterable.write _ _ := h.accounted
    simp only [Phrase.write, Stmt.write] at ih ⊢
    exact .fixed hkeyword (by simp) (.kept hname (by simp)
      (.fixed hin (by simp) (hiterable.append ih)))
  | define hkeyword hname h _ ih =>
    simp only [Phrase.write, Stmt.write] at ih ⊢
    have hsignature := h.yields.append ih
    have hheader : Yields _ _ _ := .fixed hkeyword (by simp) (.kept hname (by simp) hsignature)
    simpa using hheader
  | emptyLine hnewline _ ih => exact .newline hnewline ih
  | finish _ =>
    simp only [Phrase.write, writeEach]
    exact .nil _
  | next _ _ ih ih' =>
    simp only [Phrase.write, writeEach] at ih ih' ⊢
    exact ih.append ih'
  | skip hnewline _ ih => exact .newline hnewline ih
  | block hopening _ hclosing ih =>
    exact .fixed hopening (by simp) (Yields.append ih (.fixed hclosing (by simp) (.nil _)))
  | body hcolon hnewline _ ih =>
    exact .fixed hcolon (by simp) (.lineEnd (.newline hnewline ih))
  | nothing _ _ =>
    simp only [Phrase.write, Alternative.write]
    exact .nil _
  | @another _ condition _ _ _ _ _ _ hkeyword h _ _ ih ih' =>
    have hcondition : Yields condition.write _ _ := h.accounted
    simp only [Phrase.write, Alternative.write] at ih ih' ⊢
    exact .fixed hkeyword (by simp) (hcondition.append (ih.append ih'))
  | last hkeyword _ ih =>
    simp only [Phrase.write, Alternative.write] at ih ⊢
    exact .fixed hkeyword (by simp) ih

end Stmt

/-- If a token stream is parsed without errors, its tokens up to the end of the input, ends of lines
apart, account for the places of the program one by one. -/
theorem parse_accounts_for_tokens (tokens : List Token) (h : (parse tokens).errors = []) :
    Accounts (yieldOf (parse tokens).program)
      ((tokensBeforeEnd tokens).filter (·.kind != .newline)) := by
  have hderives := parse_eq_clean.mp ⟨rfl, h⟩
  obtain ⟨taken, htaken, haccounts⟩ := hderives.yields
  rw [List.append_nil] at htaken
  rwa [htaken]

/-- A function that returns a zero behind several signs, and a call of it; no two tokens are the
same. -/
def signedZeroTokens : List Token :=
  let kinds : List Kind :=
    [.newline, .keyword .def_, .identifier, .symbol .leftParen, .identifier, .symbol .rightParen,
      .symbol .colon, .newline, .newline, .indent, .keyword .return_, .symbol .bang,
      .symbol .minus, .symbol .minus, .number 0.0, .newline, .newline, .dedent, .identifier,
      .symbol .leftParen, .identifier, .symbol .minus, .identifier, .symbol .rightParen,
      .endOfInput]
  kinds.zipIdx.map fun (kind, i) => ⟨kind, "", 1, .point i⟩

/-- A zero under a sign is accounted for, in a function that returns it. -/
theorem signedZeroTokens_accounted :
    (parse signedZeroTokens).errors = [] ∧
      Accounts (yieldOf (parse signedZeroTokens).program)
        ((tokensBeforeEnd signedZeroTokens).filter (·.kind != .newline)) := by
  have hclean : (parse signedZeroTokens).errors = [] := by decide
  exact ⟨hclean, parse_accounts_for_tokens signedZeroTokens hclean⟩

end Offside
