import Mathlib.Tactic.IntervalCases
import Offside.Proofs.ExprGrammar
import Offside.Proofs.Writing

/-!
# The grammar derives what is written

A canonical expression is derived from the tokens it is written as, at the level of its own
precedence and at every looser one, provided that the next token does not extend it. For operators
that group to the left the left operand is followed by an operator of its own level, so the
statement carries along what the chain of operators behind it becomes.
-/

namespace Offside

/-- Whether a token of this kind behind an expression of precedence `r` would be taken as part of
it. -/
def Kind.extends (r : Nat) (kind : Kind) : Bool :=
  kind == .symbol .leftParen || kind == .symbol .leftBracket || kind.precedence?.any (r ≤ ·)

/-- What goes on from a tighter phrase goes on from a looser one. -/
theorem Kind.extends_mono {r s : Nat} (h : r ≤ s) (kind : Kind) (hs : kind.extends s) :
    kind.extends r := by
  simp only [Kind.extends, Bool.or_eq_true, Option.any_eq_true, decide_eq_true_eq] at hs ⊢
  rcases hs with hs | ⟨p, hp, hle⟩
  · exact .inl hs
  · exact .inr ⟨p, hp, Nat.le_trans h hle⟩

/-- Tokens that fill some places one after the other. -/
theorem Fill.split {a b : List Slot} {ts : List Token} (h : Fill (a ++ b) ts) :
    ∃ us vs, ts = us ++ vs ∧ Fill a us ∧ Fill b vs := by
  induction a generalizing ts with
  | nil => exact ⟨[], ts, rfl, .nil, h⟩
  | cons slot a ih =>
    cases h with
    | cons hslot hrest =>
      obtain ⟨us, vs, rfl, hus, hvs⟩ := ih hrest
      exact ⟨_ :: us, vs, rfl, .cons hslot hus, hvs⟩

/-- A filling of some slots starts with a token that fits the first one. -/
theorem Fill.uncons {slot : Slot} {a : List Slot} {ts : List Token} (h : Fill (slot :: a) ts) :
    ∃ t us, ts = t :: us ∧ slot.Fits t ∧ Fill a us := by
  cases h with
  | cons hslot hrest => exact ⟨_, _, rfl, hslot, hrest⟩

/-- No slots are filled by no tokens. -/
theorem Fill.eq_nil {ts : List Token} (h : Fill [] ts) : ts = [] := by
  cases h
  rfl

namespace Expr

/-- There are six levels of binary operators. -/
theorem lt_of_levels {i : Nat} {level : Level} (h : levels[i]? = some level) : i < 6 :=
  (List.getElem?_eq_some_iff.mp h).1

/-- The operators of a level are those of its precedence. -/
theorem mem_operators_iff {i : Nat} {level : Level} (h : levels[i]? = some level) (kind : Kind) :
    kind ∈ level.operators ↔ kind.precedence? = some (i + 1) := by
  have hi := lt_of_levels h
  interval_cases i <;> cases h <;> cases kind with
    | symbol s => cases s <;> decide
    | keyword k => cases k <;> decide
    | _ => simp [Kind.precedence?]

/-- The phrase in which the grammar has expressions of precedence `r` or tighter. -/
def phraseAt (e : Expr) : Nat → Phrase
  | 0 => .whole e
  | 7 => .signed e
  | 8 => .power e
  | 9 => .primary e
  | i + 1 => .operation i e

/-- From the tokens `ts` an expression of precedence `r` or tighter is read. -/
def ReadsAt (r : Nat) (e : Expr) (ts : List Token) : Prop :=
  ∀ rest, leads (Kind.extends r) rest = false → Derives (e.phraseAt r) (ts ++ rest) rest

/-- From the tokens `ts` an operand of the `i`-th level is read, and then whatever the operators of
the level behind it make of it. -/
def ReadsBefore (i : Nat) (e : Expr) (ts : List Token) : Prop :=
  ∀ mid whole rest, leads (Kind.extends (i + 2)) mid = false → Derives (.chain i e whole) mid rest →
    Derives (.operation i whole) (ts ++ mid) rest

/-- Where nothing goes on from a phrase, none of the tokens that would do follows. -/
theorem not_extends {r : Nat} {rest : List Token} (h : leads (Kind.extends r) rest = false)
    {p : Kind → Bool} (hp : ∀ kind, p kind → kind.extends r) : leads p rest = false :=
  leads_eq_false_mono hp h

/-- Behind an expression that nothing extends there is no operator of its level. -/
theorem chainEnd_of_not_extends {i : Nat} {e : Expr} {rest : List Token} (hi : i < 6)
    (h : leads (Kind.extends (i + 1)) rest = false) : Derives (.chain i e e) rest rest := by
  have hlevel : levels[i]? = some (levels.get ⟨i, hi⟩) := List.getElem?_eq_getElem hi
  refine .chainEnd hlevel (not_extends h fun kind hkind => ?_)
  have hprecedence := (mem_operators_iff hlevel kind).mp (List.contains_iff_mem.mp hkind)
  simp [Kind.extends, hprecedence]

/-- An operand of a level is one of the tighter level if no operator of the level follows. -/
theorem Derives.loosenLevel {i : Nat} {e : Expr} {ts rest : List Token} (hi : i < 6)
    (h : Derives (.operation (i + 1) e) ts rest)
    (hrest : leads (Kind.extends (i + 1)) rest = false) : Derives (.operation i e) ts rest :=
  .level (List.getElem?_eq_getElem hi) h (chainEnd_of_not_extends hi hrest)

/-- A phrase is one of the next looser rank if nothing behind it goes on from that. -/
theorem Derives.loosen {r : Nat} {e : Expr} {ts rest : List Token} (hr : r < primaryRank)
    (h : Derives (e.phraseAt (r + 1)) ts rest) (hrest : leads (Kind.extends r) rest = false) :
    Derives (e.phraseAt r) ts rest := by
  have hsigned (h : Derives (.signed e) ts rest) : Derives (.operation 6 e) ts rest :=
    .tightest rfl h
  have hequal : ∀ kind : Kind, kind == .symbol .equal → kind.extends 0 := by
    intro kind hkind
    rw [eq_of_beq hkind]
    rfl
  have hpower : ∀ kind : Kind, kind == .symbol .power → kind.extends 8 := by
    intro kind hkind
    rw [eq_of_beq hkind]
    rfl
  unfold primaryRank at hr
  interval_cases r
  · exact .operation h (not_extends hrest hequal)
  · exact h.loosenLevel (by decide) hrest
  · exact h.loosenLevel (by decide) hrest
  · exact h.loosenLevel (by decide) hrest
  · exact h.loosenLevel (by decide) hrest
  · exact h.loosenLevel (by decide) hrest
  · exact (hsigned h).loosenLevel (by decide) hrest
  · exact .unsigned h
  · exact .base h (not_extends hrest hpower)

/-- What is read at a precedence is read at every looser one. -/
theorem ReadsAt.loosen {r s : Nat} {e : Expr} {ts : List Token} (h : ReadsAt s e ts) (hrs : r ≤ s)
    (hs : s ≤ primaryRank) : ReadsAt r e ts := by
  induction s with
  | zero => rwa [Nat.le_zero.mp hrs]
  | succ s ih =>
    rcases Nat.eq_or_lt_of_le hrs with rfl | hlt
    · exact h
    · refine ih (fun rest hrest => ?_) (by omega) (by omega)
      refine (h rest ?_).loosen (by omega) hrest
      exact leads_eq_false_mono (Kind.extends_mono (Nat.le_succ s)) hrest

/-- An operand of a tighter level is followed by the operators of a level. -/
theorem ReadsAt.before {i : Nat} {e : Expr} {ts : List Token} (h : ReadsAt (i + 2) e ts)
    (hi : i < 6) : ReadsBefore i e ts := by
  intro mid whole rest hmid hchain
  have hoperand : Derives (.operation (i + 1) e) (ts ++ mid) mid := by
    have hread := h mid hmid
    interval_cases i
    · exact hread
    · exact hread
    · exact hread
    · exact hread
    · exact hread
    · exact .tightest rfl hread
  exact .level (List.getElem?_eq_getElem hi) hoperand hchain

/-- An operand followed by no operator of its level stands for itself. -/
theorem ReadsBefore.readsAt {i : Nat} {e : Expr} {ts : List Token} (h : ReadsBefore i e ts)
    (hi : i < 6) : ReadsAt (i + 1) e ts := by
  intro rest hrest
  have htighter : leads (Kind.extends (i + 2)) rest = false :=
    leads_eq_false_mono (Kind.extends_mono (Nat.le_succ _)) hrest
  have hread := h rest e rest htighter (chainEnd_of_not_extends hi hrest)
  interval_cases i <;> exact hread

/-- An expression is read at its own precedence, and in front of the operators of every level that
is not tighter. -/
structure Readable (e : Expr) (ts : List Token) : Prop where
  readsAt : ReadsAt e.rank e ts
  before {i : Nat} : i < 6 → i + 1 ≤ e.rank → ReadsBefore i e ts

/-- No phrase is tighter than an operand. -/
theorem rank_le (e : Expr) : e.rank ≤ primaryRank := by
  have hprecedence (kind : Kind) : kind.precedence?.getD 0 ≤ 9 := by
    unfold Kind.precedence?
    split <;> simp
  cases e with
  | binary left operator right => exact hprecedence operator.kind
  | logical left operator right => exact hprecedence operator.kind
  | _ => simp [rank, primaryRank, signRank]

/-- A readable expression is read at every rank up to its own. -/
theorem Readable.at {e : Expr} {ts : List Token} (h : Readable e ts) {r : Nat} (hr : r ≤ e.rank) :
    ReadsAt r e ts :=
  h.readsAt.loosen hr e.rank_le

/-- An expression that is no operand of its own level. -/
theorem Readable.of_readsAt {e : Expr} {ts : List Token} (h : ReadsAt e.rank e ts)
    (hrank : e.rank = 0 ∨ signRank ≤ e.rank) : Readable e ts where
  readsAt := h
  before {i} hi hle := by
    have hsign : signRank ≤ e.rank := by
      rcases hrank with hzero | hsign
      · omega
      · exact hsign
    unfold signRank at hsign
    exact (h.loosen (r := i + 2) (by omega) e.rank_le).before hi

/-- An operator of a level behind a left operand, and its right operand. -/
theorem Readable.of_level {i : Nat} {level : Level} {left right : Expr} {operator : Token}
    {ts us : List Token} (hlevel : levels[i]? = some level)
    (hrank : (level.join left operator right).rank = i + 1)
    (hkind : operator.kind ∈ level.operators) (hleft : Readable left ts)
    (hright : Readable right us) (hleftRank : i + 1 ≤ left.rank)
    (hrightRank : i + 1 < right.rank) :
    Readable (level.join left operator right) (ts ++ operator :: us) := by
  have hi := lt_of_levels hlevel
  have hbefore : ReadsBefore i (level.join left operator right) (ts ++ operator :: us) := by
    intro mid whole rest hmid hchain
    have hoperand : Derives (.operation (i + 1) right) (us ++ mid) mid := by
      have hread := hright.at (r := i + 2) hrightRank mid hmid
      -- Behind the tightest level come the signs, which are no level of their own.
      interval_cases i
      · exact hread
      · exact hread
      · exact hread
      · exact hread
      · exact hread
      · exact .tightest rfl hread
    have hstep : Derives (.chain i left whole) (operator :: (us ++ mid)) rest :=
      .chainStep hlevel hkind hoperand hchain
    have hoperator : leads (Kind.extends (i + 2)) (operator :: (us ++ mid)) = false := by
      have hprecedence := (mem_operators_iff hlevel operator.kind).mp hkind
      have hparen : operator.kind ≠ .symbol .leftParen := by
        intro heq
        rw [heq] at hprecedence
        cases hprecedence
      have hbracket : operator.kind ≠ .symbol .leftBracket := by
        intro heq
        rw [heq] at hprecedence
        cases hprecedence
      simp [Kind.extends, hparen, hbracket, hprecedence]
    have hwhole := hleft.before hi hleftRank (operator :: (us ++ mid)) whole rest hoperator hstep
    simpa using hwhole
  exact
    { readsAt := hrank ▸ hbefore.readsAt hi
      before := by
        intro j hj hle
        rcases Nat.eq_or_lt_of_le hle with heq | hlt
        · obtain rfl : j = i := by omega
          exact hbefore
        · have hat := hbefore.readsAt hi
          exact (hat.loosen (r := j + 2) (by omega) (by unfold primaryRank; omega)).before hj }

/-- A literal, a name, a call, or what stands in brackets. -/
theorem Readable.of_primary {e : Expr} {ts : List Token} (hrank : e.rank = primaryRank)
    (h : ∀ rest, leads (Kind.extends primaryRank) rest = false →
      Derives (.primary e) (ts ++ rest) rest) : Readable e ts := by
  refine .of_readsAt ?_ (.inr (by rw [hrank]; decide))
  rw [hrank]
  exact h

/-- An expression in front of a token that extends no expression. -/
theorem Readable.whole {e : Expr} {ts rest : List Token} (h : Readable e ts)
    (hrest : leads (Kind.extends 0) rest = false) : Derives (.whole e) (ts ++ rest) rest :=
  h.at (Nat.zero_le _) rest hrest

/-- A token that does not go on from a phrase ends it. -/
theorem not_extends_of_kind {t : Token} {kind : Kind} (hkind : t.kind = kind) {r : Nat}
    (h : kind.extends r = false) (rest : List Token) :
    leads (Kind.extends r) (t :: rest) = false := by
  rw [leads_cons, hkind]
  exact h

/-- A literal is readable from its token. -/
theorem Readable.literal {value : Literal} {t : Token} (hkind : t.kind = value.kind) :
    Readable (.literal value) [t] := by
  refine .of_primary rfl fun rest _ => .literal ?_
  rw [hkind]
  cases value with
  | boolean b => cases b <;> rfl
  | _ => rfl

/-- A name is readable from its token. -/
theorem Readable.variable {name : Token} (hname : name.kind = .identifier) :
    Readable (.variable name) [name] := by
  refine .of_primary rfl fun rest hrest => .variable hname ?_ ?_
  · refine not_extends hrest fun kind hkind => ?_
    simp [Kind.extends, eq_of_beq hkind]
  · refine not_extends hrest fun kind hkind => ?_
    simp [Kind.extends, eq_of_beq hkind]

/-- Parentheses around a readable expression make it an operand. -/
theorem Readable.grouping {inner : Expr} {opening closing : Token} {ts : List Token}
    (hopening : opening.kind = .symbol .leftParen) (hclosing : closing.kind = .symbol .rightParen)
    (hinner : Readable inner ts) : Readable (.grouping inner) (opening :: (ts ++ [closing])) := by
  refine .of_primary rfl fun rest _ => ?_
  have hderives := hinner.whole (not_extends_of_kind hclosing rfl rest)
  simpa using Derives.grouping hopening hderives hclosing

/-- A sign is folded into a literal only in front of zero. -/
theorem applyPrefix_of_not_zero {operator : Token} {operand : Expr}
    (h : (operator.kind == .symbol .minus && operand.isZero) = false) :
    applyPrefix operator operand = .unary operator operand := by
  unfold applyPrefix
  split
  next value =>
    have hzero : ¬(operator.kind = .symbol .minus ∧ value == 0.0) := by
      simpa [isZero] using h
    rw [if_neg hzero]
  next => rfl

/-- A unary operation is readable if its operand binds tightly enough and it is not folded. -/
theorem Readable.unary {operator : Token} {operand : Expr} {ts : List Token}
    (hoperator : operator.kind ∈ prefixOperators) (hrank : signRank ≤ operand.rank)
    (hzero : (operator.kind == .symbol .minus && operand.isZero) = false)
    (hoperand : Readable operand ts) : Readable (.unary operator operand) (operator :: ts) := by
  refine .of_readsAt (fun rest hrest => ?_) (.inr (Nat.le_refl _))
  have hsigned := Derives.sign hoperator (hoperand.at hrank rest hrest)
  rw [applyPrefix_of_not_zero hzero] at hsigned
  exact hsigned

/-- A power is readable if its base is an operand. -/
theorem Readable.power {left right : Expr} {operator : Token} {ts us : List Token}
    (hoperator : operator.kind = .symbol .power) (hleft : Readable left ts)
    (hright : Readable right us) (hleftRank : left.rank = primaryRank)
    (hrightRank : powerRank ≤ right.rank) :
    Readable (.binary left operator right) (ts ++ operator :: us) := by
  have hrank : (Expr.binary left operator right).rank = powerRank := by
    simp [rank, hoperator, Kind.precedence?, powerRank]
  refine .of_readsAt ?_ (.inr (by rw [hrank]; decide))
  rw [hrank]
  intro rest hrest
  have hbase := hleft.at (Nat.le_of_eq hleftRank.symm) (operator :: (us ++ rest))
    (not_extends_of_kind hoperator rfl _)
  have hraise := Derives.raise hbase hoperator (hright.at hrightRank rest hrest)
  simpa [powerRank, phraseAt] using hraise

/-- An assignment is readable if its value is. -/
theorem Readable.assign {name sign : Token} {value : Expr} {ts : List Token}
    (hname : name.kind = .identifier) (hsign : sign.kind = .symbol .equal)
    (hvalue : Readable value ts) : Readable (.assign name value) (name :: sign :: ts) := by
  refine .of_readsAt (fun rest hrest => ?_) (.inl rfl)
  have htarget := (Readable.variable hname).at (r := 1) (by simp [rank, primaryRank])
    (sign :: (ts ++ rest)) (not_extends_of_kind hsign rfl _)
  exact .assign htarget hsign (hvalue.at (Nat.zero_le _) rest hrest)

/-- A name with a readable index is readable. -/
theorem Readable.element {name opening closing : Token} {position : Expr} {ts : List Token}
    (hname : name.kind = .identifier) (hopening : opening.kind = .symbol .leftBracket)
    (hclosing : closing.kind = .symbol .rightBracket) (hposition : Readable position ts) :
    Readable (.element name position) (name :: opening :: (ts ++ [closing])) := by
  refine .of_primary rfl fun rest _ => ?_
  have hderives := hposition.whole (not_extends_of_kind hclosing rfl rest)
  simpa using Derives.element hname hopening hderives hclosing

/-- So is a name with two readable bounds. -/
theorem Readable.slice {name opening colon closing : Token} {start stop : Expr}
    {ts us : List Token} (hname : name.kind = .identifier)
    (hopening : opening.kind = .symbol .leftBracket) (hcolon : colon.kind = .symbol .colon)
    (hclosing : closing.kind = .symbol .rightBracket) (hstart : Readable start ts)
    (hstop : Readable stop us) :
    Readable (.slice name start stop)
      (name :: opening :: (ts ++ colon :: (us ++ [closing]))) := by
  refine .of_primary rfl fun rest _ => ?_
  have hderivesStop := hstop.whole (not_extends_of_kind hclosing rfl rest)
  have hderives := hstart.whole (not_extends_of_kind hcolon rfl (us ++ closing :: rest))
  simpa using Derives.slice hname hopening hderives hcolon hderivesStop hclosing

/-- So is a name with three. -/
theorem Readable.stride {name opening colon colon' closing : Token} {start stop step : Expr}
    {ts us vs : List Token} (hname : name.kind = .identifier)
    (hopening : opening.kind = .symbol .leftBracket) (hcolon : colon.kind = .symbol .colon)
    (hcolon' : colon'.kind = .symbol .colon) (hclosing : closing.kind = .symbol .rightBracket)
    (hstart : Readable start ts) (hstop : Readable stop us) (hstep : Readable step vs) :
    Readable (.stride name start stop step)
      (name :: opening :: (ts ++ colon :: (us ++ colon' :: (vs ++ [closing])))) := by
  refine .of_primary rfl fun rest _ => ?_
  have hderivesStep := hstep.whole (not_extends_of_kind hclosing rfl rest)
  have hderivesStop := hstop.whole (not_extends_of_kind hcolon' rfl (vs ++ closing :: rest))
  have hderives := hstart.whole
    (not_extends_of_kind hcolon rfl (us ++ colon' :: (vs ++ closing :: rest)))
  simpa using Derives.stride hname hopening hderives hcolon hderivesStop hcolon' hderivesStep
    hclosing

/-- Expressions with a comma in front of each are read up to a token that is neither a comma nor
extends an expression. -/
def ReadableMore (es : List Expr) (ts : List Token) : Prop :=
  ∀ rest, leads (Kind.extends 0) rest = false → leads (· == .symbol .comma) rest = false →
    Derives (.more es) (ts ++ rest) rest

/-- What starts with a comma or is not there extends no expression. -/
theorem Derives.not_extends_more {es : List Expr} {ts rest : List Token}
    (h : Derives (.more es) ts rest) (hrest : leads (Kind.extends 0) rest = false) :
    leads (Kind.extends 0) ts = false := by
  cases h with
  | noMore _ => exact hrest
  | more hcomma _ _ => exact not_extends_of_kind hcomma rfl _

/-- No more items are readable from nothing. -/
theorem ReadableMore.nil : ReadableMore [] [] := fun _ _ hcomma => .noMore hcomma

/-- A comma and a readable item go in front of more items. -/
theorem ReadableMore.cons {e : Expr} {es : List Expr} {comma : Token} {ts us : List Token}
    (hcomma : comma.kind = .symbol .comma) (he : Readable e ts) (hes : ReadableMore es us) :
    ReadableMore (e :: es) (comma :: (ts ++ us)) := by
  intro rest hrest hrestComma
  have hothers := hes rest hrest hrestComma
  have hmore := Derives.more hcomma (he.whole (hothers.not_extends_more hrest)) hothers
  simpa using hmore

/-- Expressions separated by commas are read up to a closing symbol. -/
def ReadableItems (closing : Symbol) (es : List Expr) (ts : List Token) : Prop :=
  ∀ rest, leads (· == .symbol closing) rest = true → Derives (.items closing es) (ts ++ rest) rest

/-- No items are readable from nothing. -/
theorem ReadableItems.nil {closing : Symbol} : ReadableItems closing [] [] :=
  fun _ hrest => .noItems hrest

/-- A readable item goes in front of more items. -/
theorem ReadableItems.cons {closing : Symbol} {e : Expr} {es : List Expr} {ts us : List Token}
    (hclosing : closing = .rightParen ∨ closing = .rightBracket) (he : Readable e ts)
    (hes : ReadableMore es us) : ReadableItems closing (e :: es) (ts ++ us) := by
  intro rest hrest
  have hextends : leads (Kind.extends 0) rest = false := by
    refine leads_eq_false_of (fun kind hkind => ?_) hrest
    rw [eq_of_beq hkind]
    rcases hclosing with rfl | rfl <;> rfl
  have hcomma : leads (· == .symbol .comma) rest = false := by
    refine leads_eq_false_of (fun kind hkind => ?_) hrest
    rw [eq_of_beq hkind]
    rcases hclosing with rfl | rfl <;> rfl
  have hothers := hes rest hextends hcomma
  have hfirst := he.whole (hothers.not_extends_more hextends)
  rw [← List.append_assoc] at hfirst
  refine .items (leads_eq_false_of (fun kind hkind => ?_) hfirst.starts) hfirst hothers
  rw [beq_eq_false_iff_ne]
  rintro rfl
  rcases hclosing with rfl | rfl <;> cases hkind

/-- Brackets around readable items make a list. -/
theorem Readable.list {opening closing : Token} {items : List Expr} {ts : List Token}
    (hopening : opening.kind = .symbol .leftBracket)
    (hclosing : closing.kind = .symbol .rightBracket)
    (hitems : ReadableItems .rightBracket items ts) :
    Readable (.list items) (opening :: (ts ++ [closing])) := by
  refine .of_primary rfl fun rest _ => ?_
  have hderives := hitems (closing :: rest) (by simp [hclosing])
  simpa using Derives.list hopening hderives hclosing

/-- A name with readable arguments in parentheses is a call. -/
theorem Readable.call {name opening closing : Token} {arguments : List Expr} {ts : List Token}
    (hname : name.kind = .identifier) (hopening : opening.kind = .symbol .leftParen)
    (hclosing : closing.kind = .symbol .rightParen)
    (harguments : ReadableItems .rightParen arguments ts) :
    Readable (.call name arguments) (name :: opening :: (ts ++ [closing])) := by
  refine .of_primary rfl fun rest _ => ?_
  have hderives := harguments (closing :: rest) (by simp [hclosing])
  simpa using Derives.call hname hopening hderives hclosing

/-- The operators between operands that are computed first stand in the levels of equality,
comparison, sums and products. -/
theorem binary_level {kind : Kind} {r : Nat} (h : kind.precedence? = some r) (hr : 3 ≤ r)
    (hpower : r ≠ powerRank) :
    ∃ level, levels[r - 1]? = some level ∧ level.join = .binary ∧ kind ∈ level.operators := by
  have hlt : r < 7 := by
    unfold Kind.precedence? at h
    split at h <;> cases h <;> first | decide | exact absurd rfl hpower
  have hlevel : levels[r - 1]? = some (levels.get ⟨r - 1, show r - 1 < 6 by omega⟩) :=
    List.getElem?_eq_getElem _
  refine ⟨_, hlevel, ?_, (mem_operators_iff hlevel kind).mpr ?_⟩
  · interval_cases r <;> rfl
  · rw [h]
    congr 1
    omega
/-- A canonical operation is readable if both operands are. -/
theorem Readable.binary {left right : Expr} {operator : Token} {ts us : List Token}
    (h : (Expr.binary left operator right).isCanonical) (hleft : Readable left ts)
    (hright : Readable right us) :
    Readable (.binary left operator right) (ts ++ operator :: us) := by
  rw [isCanonical, Bool.and_eq_true] at h
  obtain ⟨-, hranks⟩ := h
  split at hranks
  next hprecedence =>
    simp only [Bool.and_eq_true, decide_eq_true_eq] at hranks
    have hpower : operator.kind = .symbol .power := by
      unfold Kind.precedence? at hprecedence
      split at hprecedence <;> cases hprecedence
      assumption
    exact .power hpower hleft hright hranks.1 hranks.2
  next r hpower hprecedence =>
    simp only [Bool.and_eq_true, decide_eq_true_eq] at hranks
    obtain ⟨level, hlevel, hjoin, hoperator⟩ :=
      binary_level hprecedence hranks.1.1 (by simpa [powerRank] using hpower)
    rw [← hjoin]
    refine .of_level hlevel ?_ hoperator hleft hright (by omega) (by omega)
    rw [hjoin]
    simp only [rank, hprecedence, Option.getD_some]
    omega
  next => cases hranks

/-- So is a canonical logical operation. -/
theorem Readable.logical {left right : Expr} {operator : Token} {ts us : List Token}
    (h : (Expr.logical left operator right).isCanonical) (hleft : Readable left ts)
    (hright : Readable right us) :
    Readable (.logical left operator right) (ts ++ operator :: us) := by
  rw [isCanonical, Bool.and_eq_true] at h
  obtain ⟨-, hranks⟩ := h
  split at hranks
  next hkind =>
    simp only [Bool.and_eq_true, decide_eq_true_eq] at hranks
    have hlevel : levels[0]? = some ⟨[.keyword .or_], .logical⟩ := rfl
    refine .of_level hlevel ?_ ?_ hleft hright hranks.1 hranks.2
    · simp [rank, hkind, Kind.precedence?]
    · simp [hkind]
  next hkind =>
    simp only [Bool.and_eq_true, decide_eq_true_eq] at hranks
    have hlevel : levels[1]? = some ⟨[.keyword .and_], .logical⟩ := rfl
    refine .of_level hlevel ?_ ?_ hleft hright hranks.1 hranks.2
    · simp [rank, hkind, Kind.precedence?]
    · simp [hkind]
  next => cases hranks

mutual

/-- A canonical expression is read from the tokens it is written as. -/
theorem readable_write (e : Expr) (hcanonical : e.isCanonical) {ts : List Token}
    (h : Fill e.write ts) : Readable e ts := by
  match e with
  | .literal value =>
    obtain ⟨t, us, rfl, hkind, hnil⟩ := h.uncons
    rw [hnil.eq_nil]
    exact .literal hkind
  | .variable name =>
    obtain ⟨t, us, rfl, rfl, hnil⟩ := h.uncons
    rw [hnil.eq_nil]
    exact .variable (eq_of_beq hcanonical)
  | .grouping inner =>
    obtain ⟨opening, us, rfl, hopening, hafter⟩ := h.uncons
    obtain ⟨us, vs, rfl, hinner, hend⟩ := hafter.split
    obtain ⟨closing, vs, rfl, hclosing, hnil⟩ := hend.uncons
    rw [hnil.eq_nil]
    exact .grouping hopening hclosing (readable_write inner hcanonical hinner)
  | .unary operator operand =>
    obtain ⟨_, us, rfl, rfl, hoperand⟩ := h.uncons
    simp only [isCanonical, Bool.and_eq_true, Bool.or_eq_true, beq_iff_eq, decide_eq_true_eq,
      Bool.not_eq_true'] at hcanonical
    obtain ⟨⟨⟨hoperator, hcanonical⟩, hrank⟩, hzero⟩ := hcanonical
    refine .unary ?_ hrank hzero (readable_write operand hcanonical hoperand)
    simpa [prefixOperators] using hoperator
  | .binary left operator right =>
    obtain ⟨us, vs, rfl, hleft, hafter⟩ := h.split
    obtain ⟨_, vs, rfl, rfl, hright⟩ := hafter.uncons
    have hoperands := hcanonical
    simp only [isCanonical, Bool.and_eq_true] at hoperands
    exact .binary hcanonical (readable_write left hoperands.1.1 hleft)
      (readable_write right hoperands.1.2 hright)
  | .logical left operator right =>
    obtain ⟨us, vs, rfl, hleft, hafter⟩ := h.split
    obtain ⟨_, vs, rfl, rfl, hright⟩ := hafter.uncons
    have hoperands := hcanonical
    simp only [isCanonical, Bool.and_eq_true] at hoperands
    exact .logical hcanonical (readable_write left hoperands.1.1 hleft)
      (readable_write right hoperands.1.2 hright)
  | .assign name value =>
    obtain ⟨_, us, rfl, rfl, hafter⟩ := h.uncons
    obtain ⟨sign, us, rfl, hsign, hvalue⟩ := hafter.uncons
    simp only [isCanonical, Bool.and_eq_true, beq_iff_eq] at hcanonical
    exact .assign hcanonical.1 hsign (readable_write value hcanonical.2 hvalue)
  | .list items =>
    obtain ⟨opening, us, rfl, hopening, hafter⟩ := h.uncons
    obtain ⟨us, vs, rfl, hitems, hend⟩ := hafter.split
    obtain ⟨closing, vs, rfl, hclosing, hnil⟩ := hend.uncons
    rw [hnil.eq_nil]
    exact .list hopening hclosing (readableItems_write items hcanonical (.inr rfl) hitems)
  | .element name position =>
    obtain ⟨_, us, rfl, rfl, hafter⟩ := h.uncons
    obtain ⟨opening, us, rfl, hopening, hafter⟩ := hafter.uncons
    obtain ⟨us, vs, rfl, hposition, hend⟩ := hafter.split
    obtain ⟨closing, vs, rfl, hclosing, hnil⟩ := hend.uncons
    rw [hnil.eq_nil]
    simp only [isCanonical, Bool.and_eq_true, beq_iff_eq] at hcanonical
    exact .element hcanonical.1 hopening hclosing (readable_write position hcanonical.2 hposition)
  | .slice name start stop =>
    obtain ⟨_, us, rfl, rfl, hafter⟩ := h.uncons
    obtain ⟨opening, us, rfl, hopening, hafter⟩ := hafter.uncons
    obtain ⟨us, vs, rfl, hstart, hafter⟩ := hafter.split
    obtain ⟨colon, vs, rfl, hcolon, hafter⟩ := hafter.uncons
    obtain ⟨vs, ws, rfl, hstop, hend⟩ := hafter.split
    obtain ⟨closing, ws, rfl, hclosing, hnil⟩ := hend.uncons
    rw [hnil.eq_nil]
    simp only [isCanonical, Bool.and_eq_true, beq_iff_eq] at hcanonical
    exact .slice hcanonical.1.1 hopening hcolon hclosing
      (readable_write start hcanonical.1.2 hstart) (readable_write stop hcanonical.2 hstop)
  | .stride name start stop step =>
    obtain ⟨_, us, rfl, rfl, hafter⟩ := h.uncons
    obtain ⟨opening, us, rfl, hopening, hafter⟩ := hafter.uncons
    obtain ⟨us, vs, rfl, hstart, hafter⟩ := hafter.split
    obtain ⟨colon, vs, rfl, hcolon, hafter⟩ := hafter.uncons
    obtain ⟨vs, ws, rfl, hstop, hafter⟩ := hafter.split
    obtain ⟨colon', ws, rfl, hcolon', hafter⟩ := hafter.uncons
    obtain ⟨ws, xs, rfl, hstep, hend⟩ := hafter.split
    obtain ⟨closing, xs, rfl, hclosing, hnil⟩ := hend.uncons
    rw [hnil.eq_nil]
    simp only [isCanonical, Bool.and_eq_true, beq_iff_eq] at hcanonical
    exact .stride hcanonical.1.1.1 hopening hcolon hcolon' hclosing
      (readable_write start hcanonical.1.1.2 hstart) (readable_write stop hcanonical.1.2 hstop)
      (readable_write step hcanonical.2 hstep)
  | .call name arguments =>
    obtain ⟨_, us, rfl, rfl, hafter⟩ := h.uncons
    obtain ⟨opening, us, rfl, hopening, hafter⟩ := hafter.uncons
    obtain ⟨us, vs, rfl, harguments, hend⟩ := hafter.split
    obtain ⟨closing, vs, rfl, hclosing, hnil⟩ := hend.uncons
    rw [hnil.eq_nil]
    simp only [isCanonical, Bool.and_eq_true, beq_iff_eq] at hcanonical
    exact .call hcanonical.1 hopening hclosing
      (readableItems_write arguments hcanonical.2 (.inl rfl) harguments)

/-- Written items are readable, by recursion on the items together with that on expressions. -/
theorem readableItems_write (es : List Expr) (hcanonical : areCanonical es) {closing : Symbol}
    (hclosing : closing = .rightParen ∨ closing = .rightBracket) {ts : List Token}
    (h : Fill (writeItems es) ts) : ReadableItems closing es ts := by
  match es with
  | [] =>
    rw [h.eq_nil]
    exact .nil
  | e :: es =>
    obtain ⟨us, vs, rfl, he, hes⟩ := h.split
    simp only [areCanonical, Bool.and_eq_true] at hcanonical
    exact .cons hclosing (readable_write e hcanonical.1 he)
      (readableMore_write es hcanonical.2 hes)

/-- So are further written items. -/
theorem readableMore_write (es : List Expr) (hcanonical : areCanonical es) {ts : List Token}
    (h : Fill (writeMore es) ts) : ReadableMore es ts := by
  match es with
  | [] =>
    rw [h.eq_nil]
    exact .nil
  | e :: es =>
    obtain ⟨comma, us, rfl, hcomma, hafter⟩ := h.uncons
    obtain ⟨us, vs, rfl, he, hes⟩ := hafter.split
    simp only [areCanonical, Bool.and_eq_true] at hcanonical
    exact .cons hcomma (readable_write e hcanonical.1 he) (readableMore_write es hcanonical.2 hes)

end

end Expr

end Offside
