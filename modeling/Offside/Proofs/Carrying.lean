import Offside.Proofs.Moves
import Offside.Proofs.StmtReading

/-!
# Derivations carried over to other tokens

The grammar looks at the kind of a few tokens ahead only, so a derivation carries over to any token
stream that goes along with the first one. What going along has to mean is listed once; inside a
line the two streams agree token by token, and where a statement may start the second one may have
further ends of lines in front of a dedent, and further statements at the end.
-/

namespace Offside

/-- Two token streams that go along with each other. -/
structure Carrier (g : Token → Token) where
  /-- The rest of the streams inside a line. -/
  inLine : List Token → List Token → Prop
  /-- The rest of the streams where a statement may start. -/
  atLine : List Token → List Token → Prop
  /-- What the second stream has behind the end of the first. -/
  tail : List Token
  isMove : IsMove g
  next {ts us : List Token} (p : Kind → Bool) : inLine ts us → leads p us = leads p ts
  take {t : Token} {ts us : List Token} : inLine (t :: ts) us → t.kind ≠ .newline →
    ∃ vs, us = g t :: vs ∧ inLine ts vs
  line {t : Token} {ts us : List Token} : inLine (t :: ts) us → t.kind = .newline →
    ∃ vs, us = g t :: vs ∧ atLine ts vs
  weaken {ts us : List Token} : inLine ts us → atLine ts us
  start {t : Token} {ts us : List Token} : atLine (t :: ts) us → t.kind ≠ .dedent →
    inLine (t :: ts) us
  drop {ts us : List Token} : atLine ts us → atLine (dropNewlines ts) (dropNewlines us)
  close {t : Token} {ts us : List Token} : atLine (t :: ts) us → t.kind = .dedent →
    ∃ t' vs, dropNewlines us = t' :: vs ∧ t'.kind = .dedent ∧ atLine ts vs
  clause {ts us : List Token} {k : Keyword} : k = .elif_ ∨ k = .else_ → atLine ts us →
    leads (· == .keyword k) us = leads (· == .keyword k) ts
  finish {us : List Token} : atLine [] us → dropNewlines us = tail

variable {g : Token → Token} {R : Carrier g}

/-- A token of a known kind inside a line. -/
theorem Carrier.takeKind {t : Token} {ts us : List Token} {kind : Kind}
    (h : R.inLine (t :: ts) us) (hkind : t.kind = kind) (hplain : kind ≠ .newline) :
    ∃ vs, us = g t :: vs ∧ (g t).kind = kind ∧ R.inLine ts vs := by
  obtain ⟨vs, rfl, hvs⟩ := R.take h (by rw [hkind]; exact hplain)
  exact ⟨vs, rfl, by rw [R.isMove.kind, hkind], hvs⟩

/-- A token of a known kind where a statement may start. -/
theorem Carrier.startKind {t : Token} {ts us : List Token} {kind : Kind}
    (h : R.atLine (t :: ts) us) (hkind : t.kind = kind) (hplain : kind ≠ .newline)
    (hdedent : kind ≠ .dedent) :
    ∃ vs, us = g t :: vs ∧ (g t).kind = kind ∧ R.inLine ts vs :=
  R.takeKind (R.start h (by rw [hkind]; exact hdedent)) hkind hplain

namespace Expr

/-- A phrase with moved tokens. -/
def Phrase.move (g : Token → Token) : Phrase → Phrase
  | .whole e => .whole (e.move g)
  | .operation i e => .operation i (e.move g)
  | .chain i left e => .chain i (left.move g) (e.move g)
  | .signed e => .signed (e.move g)
  | .power e => .power (e.move g)
  | .primary e => .primary (e.move g)
  | .items closing es => .items closing (moveEach g es)
  | .more es => .more (moveEach g es)

/-- Moving the tokens of a binary operation moves both operands and the operator. -/
theorem move_join {i : Nat} {level : Level} (h : levels[i]? = some level) (left right : Expr)
    (operator : Token) :
    (level.join left operator right).move g =
      level.join (left.move g) (g operator) (right.move g) := by
  have hlevel := List.mem_of_getElem? h
  simp only [levels, List.mem_cons, List.not_mem_nil, or_false] at hlevel
  rcases hlevel with rfl | rfl | rfl | rfl | rfl | rfl <;> rfl

/-- Moving the tokens of a unary operation moves the operand and the operator, whether or not the
operation is folded into a literal. -/
theorem move_applyPrefix (hg : IsMove g) (operator : Token) (operand : Expr) :
    (applyPrefix operator operand).move g = applyPrefix (g operator) (operand.move g) := by
  cases operand with
  | literal value =>
    cases value with
    | number x =>
      simp only [applyPrefix, Expr.move, hg.kind]
      split <;> rfl
    | _ => rfl
  | _ => rfl

/-- No operator is a line end. -/
theorem ne_newline_of_mem_operators {i : Nat} {level : Level} (h : levels[i]? = some level)
    {kind : Kind} (hkind : kind ∈ level.operators) : kind ≠ .newline := by
  rintro rfl
  have hall : levels.all fun level => !level.operators.contains .newline := rfl
  have hlevel := List.all_eq_true.mp hall level (List.mem_of_getElem? h)
  simp [hkind] at hlevel

/-- The derivation of a phrase carries over inside a line. -/
theorem Derives.carry {phrase : Phrase} {ts rest : List Token} (h : Derives phrase ts rest)
    {us : List Token} (hus : R.inLine ts us) :
    ∃ vs, R.inLine rest vs ∧ Derives (phrase.move g) us vs := by
  have hkind (t : Token) := R.isMove.kind t
  induction h generalizing us with
  | operation _ hequal ih =>
    obtain ⟨vs, hvs, h⟩ := ih hus
    exact ⟨vs, hvs, .operation h (by rw [R.next _ hvs, hequal])⟩
  | assign _ hsign _ ih ih' =>
    obtain ⟨_, hvs, h⟩ := ih hus
    obtain ⟨vs, rfl, hsign', hvs'⟩ := R.takeKind hvs hsign (by simp)
    obtain ⟨ws, hws, h'⟩ := ih' hvs'
    exact ⟨ws, hws, .assign h hsign' h'⟩
  | level hlevel _ _ ih ih' =>
    obtain ⟨vs, hvs, h⟩ := ih hus
    obtain ⟨ws, hws, h'⟩ := ih' hvs
    exact ⟨ws, hws, .level hlevel h h'⟩
  | tightest hlevel _ ih =>
    obtain ⟨vs, hvs, h⟩ := ih hus
    exact ⟨vs, hvs, .tightest hlevel h⟩
  | chainEnd hlevel hrest => exact ⟨us, hus, .chainEnd hlevel (by rw [R.next _ hus, hrest])⟩
  | chainStep hlevel hoperator _ _ ih ih' =>
    obtain ⟨vs, rfl, hvs⟩ := R.take hus (ne_newline_of_mem_operators hlevel hoperator)
    obtain ⟨ws, hws, h⟩ := ih hvs
    obtain ⟨xs, hxs, h'⟩ := ih' hws
    rw [Phrase.move, move_join hlevel] at h'
    exact ⟨xs, hxs, .chainStep hlevel (by rwa [hkind]) h h'⟩
  | @sign operator _ _ _ hoperator _ ih =>
    have hplain : operator.kind ≠ .newline := by
      intro heq
      simp [heq, prefixOperators] at hoperator
    obtain ⟨vs, rfl, hvs⟩ := R.take hus hplain
    obtain ⟨ws, hws, h⟩ := ih hvs
    rw [Phrase.move, move_applyPrefix R.isMove]
    exact ⟨ws, hws, .sign (by rwa [hkind]) h⟩
  | unsigned _ ih =>
    obtain ⟨vs, hvs, h⟩ := ih hus
    exact ⟨vs, hvs, .unsigned h⟩
  | base _ hpower ih =>
    obtain ⟨vs, hvs, h⟩ := ih hus
    exact ⟨vs, hvs, .base h (by rw [R.next _ hvs, hpower])⟩
  | raise _ hpower _ ih ih' =>
    obtain ⟨_, hvs, h⟩ := ih hus
    obtain ⟨vs, rfl, hpower', hvs'⟩ := R.takeKind hvs hpower (by simp)
    obtain ⟨ws, hws, h'⟩ := ih' hvs'
    exact ⟨ws, hws, .raise h hpower' h'⟩
  | @literal t _ _ hvalue =>
    have hplain : t.kind ≠ .newline := by
      intro heq
      simp [heq, Kind.literal?] at hvalue
    obtain ⟨vs, rfl, hvs⟩ := R.take hus hplain
    exact ⟨vs, hvs, .literal (by rw [hkind, hvalue])⟩
  | grouping hopening _ hclosing ih =>
    obtain ⟨vs, rfl, hopening', hvs⟩ := R.takeKind hus hopening (by simp)
    obtain ⟨_, hws, h⟩ := ih hvs
    obtain ⟨ws, rfl, hclosing', hws'⟩ := R.takeKind hws hclosing (by simp)
    exact ⟨ws, hws', .grouping hopening' h hclosing'⟩
  | list hopening _ hclosing ih =>
    obtain ⟨vs, rfl, hopening', hvs⟩ := R.takeKind hus hopening (by simp)
    obtain ⟨_, hws, h⟩ := ih hvs
    obtain ⟨ws, rfl, hclosing', hws'⟩ := R.takeKind hws hclosing (by simp)
    exact ⟨ws, hws', .list hopening' h hclosing'⟩
  | «variable» hname hbracket hparen =>
    obtain ⟨vs, rfl, hname', hvs⟩ := R.takeKind hus hname (by simp)
    exact ⟨vs, hvs, .variable hname' (by rw [R.next _ hvs, hbracket])
      (by rw [R.next _ hvs, hparen])⟩
  | element hname hopening _ hclosing ih =>
    obtain ⟨_, rfl, hname', hvs⟩ := R.takeKind hus hname (by simp)
    obtain ⟨vs, rfl, hopening', hvs'⟩ := R.takeKind hvs hopening (by simp)
    obtain ⟨_, hws, h⟩ := ih hvs'
    obtain ⟨ws, rfl, hclosing', hws'⟩ := R.takeKind hws hclosing (by simp)
    exact ⟨ws, hws', .element hname' hopening' h hclosing'⟩
  | slice hname hopening _ hcolon _ hclosing ih ih' =>
    obtain ⟨_, rfl, hname', hvs⟩ := R.takeKind hus hname (by simp)
    obtain ⟨vs, rfl, hopening', hvs'⟩ := R.takeKind hvs hopening (by simp)
    obtain ⟨_, hws, h⟩ := ih hvs'
    obtain ⟨ws, rfl, hcolon', hws'⟩ := R.takeKind hws hcolon (by simp)
    obtain ⟨_, hxs, h'⟩ := ih' hws'
    obtain ⟨xs, rfl, hclosing', hxs'⟩ := R.takeKind hxs hclosing (by simp)
    exact ⟨xs, hxs', .slice hname' hopening' h hcolon' h' hclosing'⟩
  | stride hname hopening _ hcolon _ hcolon₂ _ hclosing ih ih' ih'' =>
    obtain ⟨_, rfl, hname', hvs⟩ := R.takeKind hus hname (by simp)
    obtain ⟨vs, rfl, hopening', hvs'⟩ := R.takeKind hvs hopening (by simp)
    obtain ⟨_, hws, h⟩ := ih hvs'
    obtain ⟨ws, rfl, hcolon', hws'⟩ := R.takeKind hws hcolon (by simp)
    obtain ⟨_, hxs, h'⟩ := ih' hws'
    obtain ⟨xs, rfl, hcolon₂', hxs'⟩ := R.takeKind hxs hcolon₂ (by simp)
    obtain ⟨_, hys, h''⟩ := ih'' hxs'
    obtain ⟨ys, rfl, hclosing', hys'⟩ := R.takeKind hys hclosing (by simp)
    exact ⟨ys, hys', .stride hname' hopening' h hcolon' h' hcolon₂' h'' hclosing'⟩
  | call hname hopening _ hclosing ih =>
    obtain ⟨_, rfl, hname', hvs⟩ := R.takeKind hus hname (by simp)
    obtain ⟨vs, rfl, hopening', hvs'⟩ := R.takeKind hvs hopening (by simp)
    obtain ⟨_, hws, h⟩ := ih hvs'
    obtain ⟨ws, rfl, hclosing', hws'⟩ := R.takeKind hws hclosing (by simp)
    exact ⟨ws, hws', .call hname' hopening' h hclosing'⟩
  | noItems hclosing => exact ⟨us, hus, .noItems (by rw [R.next _ hus, hclosing])⟩
  | items hclosing _ _ ih ih' =>
    obtain ⟨vs, hvs, h⟩ := ih hus
    obtain ⟨ws, hws, h'⟩ := ih' hvs
    exact ⟨ws, hws, .items (by rw [R.next _ hus, hclosing]) h h'⟩
  | noMore hcomma => exact ⟨us, hus, .noMore (by rw [R.next _ hus, hcomma])⟩
  | more hcomma _ _ ih ih' =>
    obtain ⟨vs, rfl, hcomma', hvs⟩ := R.takeKind hus hcomma (by simp)
    obtain ⟨ws, hws, h⟩ := ih hvs
    obtain ⟨xs, hxs, h'⟩ := ih' hws
    exact ⟨xs, hxs, .more hcomma' h h'⟩

end Expr

namespace Stmt

/-- The bounds of a range are carried over, since they stand inside a line. -/
theorem DerivesRange.carry {start step : Option Expr} {stop : Expr} {ts rest : List Token}
    (h : DerivesRange start stop step ts rest) {us : List Token} (hus : R.inLine ts us) :
    ∃ vs, R.inLine rest vs ∧
      DerivesRange (start.map (Expr.move g)) (stop.move g) (step.map (Expr.move g)) us vs := by
  cases h with
  | stop hopening h hclosing =>
    obtain ⟨vs, rfl, hopening', hvs⟩ := R.takeKind hus hopening (by simp)
    obtain ⟨_, hws, h⟩ := h.carry hvs
    obtain ⟨ws, rfl, hclosing', hws'⟩ := R.takeKind hws hclosing (by simp)
    exact ⟨ws, hws', .stop hopening' h hclosing'⟩
  | start hopening h hcomma h' hclosing =>
    obtain ⟨vs, rfl, hopening', hvs⟩ := R.takeKind hus hopening (by simp)
    obtain ⟨_, hws, h⟩ := h.carry hvs
    obtain ⟨ws, rfl, hcomma', hws'⟩ := R.takeKind hws hcomma (by simp)
    obtain ⟨_, hxs, h'⟩ := h'.carry hws'
    obtain ⟨xs, rfl, hclosing', hxs'⟩ := R.takeKind hxs hclosing (by simp)
    exact ⟨xs, hxs', .start hopening' h hcomma' h' hclosing'⟩
  | step hopening h hcomma h' hcomma₂ h'' hclosing =>
    obtain ⟨vs, rfl, hopening', hvs⟩ := R.takeKind hus hopening (by simp)
    obtain ⟨_, hws, h⟩ := h.carry hvs
    obtain ⟨ws, rfl, hcomma', hws'⟩ := R.takeKind hws hcomma (by simp)
    obtain ⟨_, hxs, h'⟩ := h'.carry hws'
    obtain ⟨xs, rfl, hcomma₂', hxs'⟩ := R.takeKind hxs hcomma₂ (by simp)
    obtain ⟨_, hys, h''⟩ := h''.carry hxs'
    obtain ⟨ys, rfl, hclosing', hys'⟩ := R.takeKind hys hclosing (by simp)
    exact ⟨ys, hys', .step hopening' h hcomma' h' hcomma₂' h'' hclosing'⟩

/-- So are names separated by commas. -/
theorem DerivesNames.carry {names ts rest : List Token} (h : DerivesNames names ts rest)
    {us : List Token} (hus : R.inLine ts us) :
    ∃ vs, R.inLine rest vs ∧ DerivesNames (names.map g) us vs := by
  induction h generalizing us with
  | nil hcomma => exact ⟨us, hus, .nil (by rw [R.next _ hus, hcomma])⟩
  | cons hcomma hname _ ih =>
    obtain ⟨_, rfl, hcomma', hvs⟩ := R.takeKind hus hcomma (by simp)
    obtain ⟨vs, rfl, hname', hvs'⟩ := R.takeKind hvs hname (by simp)
    obtain ⟨ws, hws, h⟩ := ih hvs'
    exact ⟨ws, hws, .cons hcomma' hname' h⟩

/-- So are the parameters of a function. -/
theorem DerivesParameters.carry {parameters ts rest : List Token}
    (h : DerivesParameters parameters ts rest) {us : List Token} (hus : R.inLine ts us) :
    ∃ vs, R.inLine rest vs ∧ DerivesParameters (parameters.map g) us vs := by
  cases h with
  | none hopening hclosing =>
    obtain ⟨_, rfl, hopening', hvs⟩ := R.takeKind hus hopening (by simp)
    obtain ⟨vs, rfl, hclosing', hvs'⟩ := R.takeKind hvs hclosing (by simp)
    exact ⟨vs, hvs', .none hopening' hclosing'⟩
  | some hopening hname h hclosing =>
    obtain ⟨_, rfl, hopening', hvs⟩ := R.takeKind hus hopening (by simp)
    obtain ⟨vs, rfl, hname', hvs'⟩ := R.takeKind hvs hname (by simp)
    obtain ⟨_, hws, h⟩ := h.carry hvs'
    obtain ⟨ws, rfl, hclosing', hws'⟩ := R.takeKind hws hclosing (by simp)
    exact ⟨ws, hws', .some hopening' hname' h hclosing'⟩

/-- What it means that the derivation of a phrase carries over. A sequence that reaches the end of
the first stream goes on with what the second one has behind it. -/
def Phrase.Carried (R : Carrier g) (ts rest : List Token) : Phrase → Prop
  | .one s => ∀ us, R.atLine ts us → ∃ vs, R.atLine rest vs ∧ Derives (.one (s.move g)) us vs
  | .block inner => ∀ us, R.atLine ts us →
    ∃ vs, R.atLine rest vs ∧ Derives (.block (moveEach g inner)) us vs
  | .body inner => ∀ us, R.inLine ts us →
    ∃ vs, R.atLine rest vs ∧ Derives (.body (moveEach g inner)) us vs
  | .alternative otherwise => ∀ us, R.atLine ts us →
    ∃ vs, R.atLine rest vs ∧ Derives (.alternative (otherwise.move g)) us vs
  | .sequence inner => ∀ us, R.atLine ts us →
    match rest with
    | [] => ∀ further, Derives (.sequence further) R.tail [] →
      Derives (.sequence (moveEach g inner ++ further)) us []
    | _ :: rest => ∃ t vs, t.kind = .dedent ∧ R.atLine rest vs ∧
      Derives (.sequence (moveEach g inner)) us (t :: vs)

/-- An assignment is told by its first two tokens. -/
theorem startsAssignment_cons (t : Token) (ts : List Token) :
    startsAssignment (t :: ts) =
      (t.kind == .identifier && leads (· == .symbol .equal) ts) := by
  cases ts with
  | nil => simp [startsAssignment]
  | cons sign ts => rfl

/-- The derivation of a phrase carries over. -/
theorem Derives.carry {phrase : Phrase} {ts rest : List Token} (h : Derives phrase ts rest) :
    phrase.Carried R ts rest := by
  have hdrop {ts us : List Token} (h : R.inLine ts us) := R.drop (R.weaken h)
  induction h with
  | @expression value ts rest h hassign =>
    intro us hus
    cases ts with
    | nil => cases h.starts
    | cons t ts =>
      have hstarts : t.kind.startsExpr = true := h.starts
      have hplain (kind : Kind) (hkind : kind.startsExpr = false) : t.kind ≠ kind := by
        rintro rfl
        rw [hkind] at hstarts
        cases hstarts
      have hline := R.start hus (hplain .dedent rfl)
      obtain ⟨vs, hvs, hvalue⟩ := h.carry hline
      obtain ⟨ws, rfl, hws⟩ := R.take hline (hplain .newline rfl)
      refine ⟨_, hdrop hvs, .expression hvalue ?_⟩
      rw [startsAssignment_cons, R.isMove.kind, R.next _ hws, ← startsAssignment_cons, hassign]
  | assign hname hsign h =>
    intro us hus
    obtain ⟨_, rfl, hname', hvs⟩ := R.startKind hus hname (by simp) (by simp)
    obtain ⟨vs, rfl, hsign', hvs'⟩ := R.takeKind hvs hsign (by simp)
    obtain ⟨ws, hws, h⟩ := h.carry hvs'
    exact ⟨_, hdrop hws, .assign hname' hsign' h⟩
  | print hkeyword hopening h hclosing =>
    intro us hus
    obtain ⟨_, rfl, hkeyword', hvs⟩ := R.startKind hus hkeyword (by simp) (by simp)
    obtain ⟨vs, rfl, hopening', hvs'⟩ := R.takeKind hvs hopening (by simp)
    obtain ⟨_, hws, h⟩ := h.carry hvs'
    obtain ⟨ws, rfl, hclosing', hws'⟩ := R.takeKind hws hclosing (by simp)
    exact ⟨_, hdrop hws', .print hkeyword' hopening' h hclosing'⟩
  | returnNothing hkeyword hend =>
    intro us hus
    obtain ⟨vs, rfl, hkeyword', hvs⟩ := R.startKind hus hkeyword (by simp) (by simp)
    exact ⟨_, hdrop hvs, .returnNothing hkeyword' (by rw [R.next _ hvs, hend])⟩
  | returnValue hkeyword h =>
    intro us hus
    obtain ⟨vs, rfl, hkeyword', hvs⟩ := R.startKind hus hkeyword (by simp) (by simp)
    obtain ⟨ws, hws, h⟩ := h.carry hvs
    exact ⟨_, hdrop hws, .returnValue hkeyword' h⟩
  | nested hopening _ ih =>
    intro us hus
    obtain ⟨vs, hvs, h⟩ := ih us hus
    obtain ⟨us, rfl, hopening', -⟩ := R.startKind hus hopening (by simp) (by simp)
    exact ⟨vs, hvs, .nested hopening' h⟩
  | branch hkeyword h _ _ ih ih' =>
    intro us hus
    obtain ⟨vs, rfl, hkeyword', hvs⟩ := R.startKind hus hkeyword (by simp) (by simp)
    obtain ⟨ws, hws, h⟩ := h.carry hvs
    obtain ⟨xs, hxs, hbody⟩ := ih ws hws
    obtain ⟨ys, hys, hotherwise⟩ := ih' xs hxs
    exact ⟨ys, hys, .branch hkeyword' h hbody hotherwise⟩
  | loop hkeyword h _ ih =>
    intro us hus
    obtain ⟨vs, rfl, hkeyword', hvs⟩ := R.startKind hus hkeyword (by simp) (by simp)
    obtain ⟨ws, hws, h⟩ := h.carry hvs
    obtain ⟨xs, hxs, hbody⟩ := ih ws hws
    exact ⟨xs, hxs, .loop hkeyword' h hbody⟩
  | forRange hkeyword hname hin hrange h _ ih =>
    intro us hus
    obtain ⟨_, rfl, hkeyword', hvs⟩ := R.startKind hus hkeyword (by simp) (by simp)
    obtain ⟨_, rfl, hname', hvs'⟩ := R.takeKind hvs hname (by simp)
    obtain ⟨_, rfl, hin', hws⟩ := R.takeKind hvs' hin (by simp)
    obtain ⟨ws, rfl, hrange', hws'⟩ := R.takeKind hws hrange (by simp)
    obtain ⟨xs, hxs, h⟩ := h.carry hws'
    obtain ⟨ys, hys, hbody⟩ := ih xs hxs
    exact ⟨ys, hys, .forRange hkeyword' hname' hin' hrange' h hbody⟩
  | forEach hkeyword hname hin h _ ih =>
    intro us hus
    obtain ⟨_, rfl, hkeyword', hvs⟩ := R.startKind hus hkeyword (by simp) (by simp)
    obtain ⟨_, rfl, hname', hvs'⟩ := R.takeKind hvs hname (by simp)
    obtain ⟨ws, rfl, hin', hws⟩ := R.takeKind hvs' hin (by simp)
    obtain ⟨xs, hxs, h⟩ := h.carry hws
    obtain ⟨ys, hys, hbody⟩ := ih xs hxs
    exact ⟨ys, hys, .forEach hkeyword' hname' hin' h hbody⟩
  | define hkeyword hname h _ ih =>
    intro us hus
    obtain ⟨_, rfl, hkeyword', hvs⟩ := R.startKind hus hkeyword (by simp) (by simp)
    obtain ⟨vs, rfl, hname', hvs'⟩ := R.takeKind hvs hname (by simp)
    obtain ⟨ws, hws, h⟩ := h.carry hvs'
    obtain ⟨xs, hxs, hbody⟩ := ih ws hws
    exact ⟨xs, hxs, .define hkeyword' hname' h hbody⟩
  | @emptyLine newline body ts rest hnewline _ ih =>
    intro us hus
    obtain ⟨vs, rfl, hvs⟩ := R.line (R.start hus (by simp [hnewline])) hnewline
    have hnewline' : (g newline).kind = .newline := by rw [R.isMove.kind, hnewline]
    have hrest := ih vs hvs
    cases rest with
    | nil => exact fun further hfurther => .emptyLine hnewline' (hrest further hfurther)
    | cons t rest =>
      obtain ⟨t', ws, ht', hws, h⟩ := hrest
      exact ⟨t', ws, ht', hws, .emptyLine hnewline' h⟩
  | @finish ts hend =>
    intro us hus
    cases ts with
    | nil =>
      intro further hfurther
      rw [← R.finish hus] at hfurther
      exact derives_sequence_dropNewlines.mp hfurther
    | cons t ts =>
      obtain ⟨t', vs, hdrop', ht', hvs⟩ := R.close hus (by simpa using hend)
      refine ⟨t', vs, ht', hvs, derives_sequence_dropNewlines.mp ?_⟩
      rw [hdrop']
      exact .finish (by simp [ht'])
  | @next s body ts mid rest _ _ ih ih' =>
    intro us hus
    obtain ⟨vs, hvs, h⟩ := ih us hus
    have hrest := ih' vs hvs
    cases rest with
    | nil => exact fun further hfurther => .next h (hrest further hfurther)
    | cons t rest =>
      obtain ⟨t', ws, ht', hws, h'⟩ := hrest
      exact ⟨t', ws, ht', hws, .next h h'⟩
  | @skip newline _ _ _ hnewline _ ih =>
    intro us hus
    obtain ⟨vs, rfl, hvs⟩ := R.line (R.start hus (by simp [hnewline])) hnewline
    obtain ⟨ws, hws, h⟩ := ih vs hvs
    exact ⟨ws, hws, .skip (by rw [R.isMove.kind, hnewline]) h⟩
  | block hopening _ hclosing ih =>
    intro us hus
    obtain ⟨vs, rfl, hopening', hvs⟩ := R.startKind hus hopening (by simp) (by simp)
    obtain ⟨t, ws, ht, hws, h⟩ := ih vs (R.weaken hvs)
    exact ⟨ws, hws, .block hopening' h ht⟩
  | @body colon newline _ _ _ hcolon hnewline _ ih =>
    intro us hus
    obtain ⟨_, rfl, hcolon', hvs⟩ := R.takeKind hus hcolon (by simp)
    obtain ⟨vs, rfl, hvs'⟩ := R.line hvs hnewline
    obtain ⟨ws, hws, h⟩ := ih vs hvs'
    exact ⟨ws, hws, .body hcolon' (by rw [R.isMove.kind, hnewline]) h⟩
  | nothing helif helse =>
    intro us hus
    exact ⟨us, hus, .nothing (by rw [R.clause (.inl rfl) hus, helif])
      (by rw [R.clause (.inr rfl) hus, helse])⟩
  | another hkeyword h _ _ ih ih' =>
    intro us hus
    obtain ⟨vs, rfl, hkeyword', hvs⟩ := R.startKind hus hkeyword (by simp) (by simp)
    obtain ⟨ws, hws, h⟩ := h.carry hvs
    obtain ⟨xs, hxs, hbody⟩ := ih ws hws
    obtain ⟨ys, hys, hotherwise⟩ := ih' xs hxs
    exact ⟨ys, hys, .another hkeyword' h hbody hotherwise⟩
  | last hkeyword _ ih =>
    intro us hus
    obtain ⟨vs, rfl, hkeyword', hvs⟩ := R.startKind hus hkeyword (by simp) (by simp)
    obtain ⟨ws, hws, hbody⟩ := ih vs hvs
    exact ⟨ws, hws, .last hkeyword' hbody⟩

end Stmt

/-- What leads some tokens does not depend on where they are. -/
theorem leads_map (hg : IsMove g) (p : Kind → Bool) (ts : List Token) :
    leads p (ts.map g) = leads p ts := by
  cases ts with
  | nil => rfl
  | cons t ts => simp [hg.kind]

/-- Line ends are dropped alike before and after a move. -/
theorem dropNewlines_map (hg : IsMove g) (ts : List Token) :
    dropNewlines (ts.map g) = (dropNewlines ts).map g := by
  induction ts with
  | nil => rfl
  | cons t ts ih =>
    by_cases hkind : t.kind = .newline
    · rw [List.map_cons, dropNewlines_newline (by rw [hg.kind, hkind]), ih,
        dropNewlines_newline hkind]
    · have hplain : leads (· == .newline) (t :: ts) = false := by simpa using hkind
      have hplain' : leads (· == .newline) (g t :: ts.map g) = false := by
        simpa [hg.kind] using hkind
      rw [List.map_cons, dropNewlines_of_not_leads hplain', dropNewlines_of_not_leads hplain,
        List.map_cons]

/-- A token stream and its moved form. -/
def Carrier.moved (hg : IsMove g) : Carrier g where
  inLine ts us := us = ts.map g
  atLine ts us := us = ts.map g
  tail := []
  isMove := hg
  next p h := by rw [h, leads_map hg]
  take h _ := ⟨_, h, rfl⟩
  line h _ := ⟨_, h, rfl⟩
  weaken h := h
  start h _ := h
  drop h := by rw [h, dropNewlines_map hg]
  close h hkind := by
    subst h
    refine ⟨_, _, dropNewlines_of_not_leads ?_, ?_, rfl⟩
    · simp [hg.kind, hkind]
    · rw [hg.kind, hkind]
  clause _ h := by rw [h, leads_map hg]
  finish h := by
    subst h
    rfl

/-- A moved program is derived from the moved tokens. -/
theorem Stmt.Derives.move (hg : IsMove g) {body : List Stmt} {ts : List Token}
    (h : Derives (.sequence body) ts []) :
    Derives (.sequence (moveEach g body)) (ts.map g) [] := by
  have hcarried := Derives.carry (R := .moved hg) h (ts.map g) rfl [] (.finish rfl)
  simpa using hcarried

end Offside
