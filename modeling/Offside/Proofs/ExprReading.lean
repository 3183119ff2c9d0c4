import Offside.Proofs.ExprGrammar

/-!
# Reading expressions follows the grammar

Level by level, a reader finds what the grammar derives if the readers of its parts do. Every
nested expression has at least one token less in front of it, so a limit on the depth of nesting
does not matter when it is at least the number of tokens.
-/

namespace Offside.Expr

open Reader

variable {ts rest : List Token}

/-- No tail is read exactly when no operator of the level stands in front. -/
theorem readTail_eq_none {operators : List Kind} {operand : Reader Expr} :
    readTail operators operand ts = .ok none rest ↔
      rest = ts ∧ leads operators.contains ts = false := by
  rw [← acceptIf_eq_none, readTail, bind_eq_ok]
  constructor
  · rintro ⟨_ | operator, mid, haccept, h⟩
    · obtain ⟨-, rfl⟩ := pure_eq_ok.mp h
      exact haccept
    · obtain ⟨e, mid', -, h⟩ := bind_eq_ok.mp h
      cases (pure_eq_ok.mp h).1
  · intro h
    exact ⟨none, rest, h, rfl⟩

/-- A tail is read exactly when an operator of the level stands in front of an operand. -/
theorem readTail_eq_some {operators : List Kind} {operand : Reader Expr} {operator : Token}
    {e : Expr} :
    readTail operators operand ts = .ok (some (operator, e)) rest ↔
      ∃ mid, ts = operator :: mid ∧ operator.kind ∈ operators ∧ operand mid = .ok e rest := by
  rw [readTail, bind_eq_ok]
  constructor
  · rintro ⟨_ | operator', mid, haccept, h⟩
    · cases (pure_eq_ok.mp h).1
    · obtain ⟨e', mid', hoperand, h⟩ := bind_eq_ok.mp h
      obtain ⟨heq, rfl⟩ := pure_eq_ok.mp h
      cases heq
      obtain ⟨rfl, hkind⟩ := acceptIf_eq_some.mp haccept
      exact ⟨mid, rfl, List.contains_iff_mem.mp hkind, hoperand⟩
  · rintro ⟨mid, rfl, hkind, hoperand⟩
    refine ⟨some operator, mid, acceptIf_eq_some.mpr ⟨rfl, List.contains_iff_mem.mpr hkind⟩, ?_⟩
    exact bind_eq_ok.mpr ⟨e, rest, hoperand, rfl⟩

/-- Repeating an operator and an operand needs no more rounds than there are tokens. -/
theorem collect_readTail {operators : List Kind} {operand : Reader Expr} {limit : Nat}
    (hoperand : ∀ ts e rest, ts.length ≤ limit → operand ts = .ok e rest →
      rest.length < ts.length)
    (hts : ts.length ≤ limit) {tails : List (Token × Expr)} :
    collect (readTail operators operand) [] limit ts = .ok tails rest ↔
      Collected (readTail operators operand) tails ts rest := by
  apply collect_eq_ok List.length _ _ hts
  · rintro s ⟨operator, e⟩ s' hs h
    obtain ⟨mid, rfl, -, h⟩ := readTail_eq_some.mp h
    rw [List.length_cons] at hs ⊢
    have hmid := hoperand mid e s' (by omega) h
    omega
  · intro s hs
    rw [List.length_eq_zero_iff.mp hs]
    exact readTail_eq_none.mpr ⟨rfl, rfl⟩

/-! ## Levels -/

/-- The operators of a level and their operands, one after the other. -/
theorem derives_chain_iff {i n : Nat} {level : Level} {operand : Reader Expr}
    (hlevel : levels[i]? = some level)
    (hoperand : operand.Finds n fun e => Derives (.operation (i + 1) e)) (hts : ts.length ≤ n)
    {left e : Expr} :
    Derives (.chain i left e) ts rest ↔
      ∃ tails, Collected (readTail level.operators operand) tails ts rest ∧
        tails.foldl (fun left (operator, right) => level.join left operator right) left = e := by
  constructor
  · intro h
    generalize hphrase : Phrase.chain i left e = phrase at h
    induction h generalizing left with
    | chainEnd hlevel' hend =>
      cases hphrase
      cases hlevel.symm.trans hlevel'
      exact ⟨[], .nil (readTail_eq_none.mpr ⟨rfl, hend⟩), rfl⟩
    | @chainStep _ _ _ right _ operator ts mid rest hlevel' hkind hright hrest _ ih =>
      cases hphrase
      cases hlevel.symm.trans hlevel'
      rw [List.length_cons] at hts
      have hmid := hright.length_le
      obtain ⟨tails, htails, he⟩ := ih (by omega) rfl
      have hoperand' := (hoperand (by omega) right mid).mpr hright
      exact ⟨(operator, right) :: tails,
        .cons (readTail_eq_some.mpr ⟨ts, rfl, hkind, hoperand'⟩) htails, he⟩
    | _ => cases hphrase
  · rintro ⟨tails, htails, rfl⟩
    induction htails generalizing left with
    | nil h =>
      obtain ⟨rfl, hend⟩ := readTail_eq_none.mp h
      exact .chainEnd hlevel hend
    | @cons tail tails ts mid rest h _ ih =>
      obtain ⟨operator, right⟩ := tail
      obtain ⟨ts, rfl, hkind, hright⟩ := readTail_eq_some.mp h
      rw [List.length_cons] at hts
      have hright' := (hoperand (by omega) right mid).mp hright
      have hmid := hright'.length_le
      exact .chainStep hlevel hkind hright' (ih (by omega))

/-- A level finds what the grammar derives there if its operand does one level up. -/
theorem finds_readLevel {i n : Nat} {level : Level} {operand : Reader Expr}
    (hlevel : levels[i]? = some level)
    (hoperand : operand.Finds (n + 1) fun e => Derives (.operation (i + 1) e)) :
    (readLevel n level operand).Finds (n + 1) fun e => Derives (.operation i e) := by
  intro ts hts e rest
  have hshrinks : ∀ ts e rest, ts.length ≤ n → operand ts = .ok e rest →
      rest.length < ts.length := fun ts e rest hts h =>
    ((hoperand (by omega) e rest).mp h).length_le
  simp only [readLevel, bind_eq_ok, pure_eq_ok]
  constructor
  · rintro ⟨first, mid, hfirst, tails, rest, htails, rfl, rfl⟩
    have hfirst' := (hoperand hts first mid).mp hfirst
    have hmid : mid.length + 1 ≤ ts.length := hfirst'.length_le
    rw [collect_readTail hshrinks (by omega)] at htails
    exact .level hlevel hfirst'
      ((derives_chain_iff hlevel hoperand (by omega)).mpr ⟨tails, htails, rfl⟩)
  · intro h
    cases h with
    | tightest hnone _ => cases hlevel.symm.trans hnone
    | @level _ _ first _ _ mid _ hlevel' hfirst hchain =>
      cases hlevel.symm.trans hlevel'
      have hmid : mid.length + 1 ≤ ts.length := hfirst.length_le
      obtain ⟨tails, htails, he⟩ := (derives_chain_iff hlevel hoperand (by omega)).mp hchain
      rw [← collect_readTail hshrinks (by omega)] at htails
      exact ⟨first, mid, (hoperand hts first mid).mpr hfirst, tails, rest, htails, he, rfl⟩

/-! ## Powers and prefix operators -/

/-- Primaries joined by the power operator, one after the other. -/
theorem derives_power_iff {n : Nat} {primary : Reader Expr}
    (hprimary : primary.Finds n fun e => Derives (.primary e)) (hts : ts.length ≤ n) {e : Expr} :
    Derives (.power e) ts rest ↔
      ∃ first mid tails, primary ts = .ok first mid ∧
        Collected (readTail [.symbol .power] primary) tails mid rest ∧
        joinPowers first tails = e := by
  constructor
  · intro h
    generalize hphrase : Phrase.power e = phrase at h
    induction h generalizing e with
    | @base e ts rest hbase hend _ =>
      cases hphrase
      refine ⟨e, rest, [], (hprimary hts e rest).mpr hbase, .nil ?_, rfl⟩
      exact readTail_eq_none.mpr ⟨rfl, by rwa [leads_contains_singleton]⟩
    | @raise base exponent operator ts mid rest hbase hkind _ _ ih =>
      cases hphrase
      have hmid := hbase.length_le
      rw [List.length_cons] at hmid
      obtain ⟨first, mid', tails, hfirst, htails, rfl⟩ := ih (by omega) rfl
      refine ⟨base, operator :: mid, (operator, first) :: tails,
        (hprimary hts base _).mpr hbase, .cons ?_ htails, rfl⟩
      exact readTail_eq_some.mpr ⟨mid, rfl, by simp [hkind], hfirst⟩
    | _ => cases hphrase
  · rintro ⟨first, mid, tails, hfirst, htails, rfl⟩
    have hfirst' := (hprimary hts first mid).mp hfirst
    clear hfirst
    induction htails generalizing first ts with
    | nil h =>
      obtain ⟨rfl, hend⟩ := readTail_eq_none.mp h
      exact .base hfirst' (by rwa [leads_contains_singleton] at hend)
    | @cons tail tails mid mid' rest h _ ih =>
      obtain ⟨operator, next⟩ := tail
      obtain ⟨mid, rfl, hkind, hnext⟩ := readTail_eq_some.mp h
      have hmid := hfirst'.length_le
      rw [List.length_cons] at hmid
      have hnext' := (hprimary (by omega) next mid').mp hnext
      exact .raise hfirst' (by simpa using hkind) (ih (by omega) next hnext')

/-- A power finds what the grammar derives if the primary below it does. -/
theorem finds_readPower {n : Nat} {primary : Reader Expr}
    (hprimary : primary.Finds (n + 1) fun e => Derives (.primary e)) :
    (readPower n primary).Finds (n + 1) fun e => Derives (.power e) := by
  intro ts hts e rest
  have hshrinks : ∀ ts e rest, ts.length ≤ n → primary ts = .ok e rest →
      rest.length < ts.length := fun ts e rest hts h =>
    ((hprimary (by omega) e rest).mp h).length_le
  refine Iff.trans ?_ (derives_power_iff hprimary hts).symm
  simp only [readPower, bind_eq_ok, pure_eq_ok]
  constructor
  · rintro ⟨first, mid, hfirst, tails, rest, htails, rfl, rfl⟩
    have hmid : mid.length + 1 ≤ ts.length := ((hprimary hts first mid).mp hfirst).length_le
    exact ⟨first, mid, tails, hfirst, (collect_readTail hshrinks (by omega)).mp htails, rfl⟩
  · rintro ⟨first, mid, tails, hfirst, htails, rfl⟩
    have hmid : mid.length + 1 ≤ ts.length := ((hprimary hts first mid).mp hfirst).length_le
    exact ⟨first, mid, hfirst, tails, rest, (collect_readTail hshrinks (by omega)).mpr htails, rfl,
      rfl⟩

/-- No power starts with a prefix operator. -/
theorem not_power_of_mem {operator : Token} {e : Expr} (hkind : operator.kind ∈ prefixOperators) :
    ¬Derives (.power e) (operator :: ts) rest := by
  intro h
  have hstarts : operator.kind.startsPrimary = true := h.starts
  simp only [prefixOperators, List.mem_cons, List.not_mem_nil, or_false] at hkind
  rcases hkind with hkind | hkind
  · rw [hkind] at hstarts
    exact absurd hstarts (by decide)
  · rw [hkind] at hstarts
    exact absurd hstarts (by decide)

/-- All prefix operators at the front apply to the power behind them. -/
theorem derives_signed_iff {e : Expr} :
    Derives (.signed e) ts rest ↔
      ∃ operand, Derives (.power operand) (ts.dropWhile (prefixOperators.contains ·.kind)) rest ∧
        (ts.takeWhile (prefixOperators.contains ·.kind)).foldr applyPrefix operand = e := by
  induction ts generalizing e with
  | nil =>
    constructor
    · intro h
      cases h with
      | unsigned h => exact ⟨e, h, rfl⟩
    · rintro ⟨operand, h, rfl⟩
      exact .unsigned h
  | cons t ts ih =>
    by_cases hkind : t.kind ∈ prefixOperators
    · simp only [List.dropWhile_cons, List.takeWhile_cons, List.contains_iff_mem.mpr hkind, if_true,
        List.foldr_cons]
      constructor
      · intro h
        cases h with
        | sign _ h =>
          obtain ⟨operand, hoperand, rfl⟩ := ih.mp h
          exact ⟨operand, hoperand, rfl⟩
        | unsigned h => exact absurd h (not_power_of_mem hkind)
      · rintro ⟨operand, h, rfl⟩
        exact .sign hkind (ih.mpr ⟨operand, h, rfl⟩)
    · have hnot : prefixOperators.contains t.kind = false := by simpa using hkind
      simp only [List.dropWhile_cons, List.takeWhile_cons, hnot, Bool.false_eq_true, if_false,
        List.foldr_nil]
      constructor
      · intro h
        cases h with
        | sign hmem _ => exact absurd hmem hkind
        | unsigned h => exact ⟨e, h, rfl⟩
      · rintro ⟨operand, h, rfl⟩
        exact .unsigned h

/-- A signed expression finds what the grammar derives if the primary below it does. -/
theorem finds_readPrefixed {n : Nat} {primary : Reader Expr}
    (hprimary : primary.Finds (n + 1) fun e => Derives (.primary e)) :
    (readPrefixed n primary).Finds (n + 1) fun e => Derives (.signed e) := by
  intro ts hts e rest
  refine Iff.trans ?_ derives_signed_iff.symm
  have hlength := (List.dropWhile_suffix (prefixOperators.contains ·.kind) (l := ts)).length_le
  have hpower := finds_readPower hprimary (Nat.le_trans hlength hts)
  simp only [readPrefixed, bind_eq_ok, pure_eq_ok, Reader.takeWhile, EStateM.Result.ok.injEq]
  constructor
  · rintro ⟨operators, mid, ⟨rfl, rfl⟩, operand, rest, h, rfl, rfl⟩
    exact ⟨operand, (hpower operand rest).mp h, rfl⟩
  · rintro ⟨operand, h, rfl⟩
    exact ⟨_, _, ⟨rfl, rfl⟩, operand, rest, (hpower operand rest).mpr h, rfl, rfl⟩

/-! ## Items, indices and calls -/

section

variable {n : Nat} {expression : Reader Expr}

/-- The items behind the first are the ones that comma tails collect. -/
theorem derives_more_iff (hexpr : expression.Finds n fun e => Derives (.whole e))
    (hts : ts.length ≤ n) {es : List Expr} :
    Derives (.more es) ts rest ↔
      ∃ tails, Collected (readTail [.symbol .comma] expression) tails ts rest ∧
        tails.map Prod.snd = es := by
  constructor
  · intro h
    generalize hphrase : Phrase.more es = phrase at h
    induction h generalizing es with
    | noMore hend =>
      cases hphrase
      exact ⟨[], .nil (readTail_eq_none.mpr ⟨rfl, by rwa [leads_contains_singleton]⟩), rfl⟩
    | @more comma e es ts mid rest hkind he hrest _ ih =>
      cases hphrase
      rw [List.length_cons] at hts
      have hmid := he.length_le
      obtain ⟨tails, htails, rfl⟩ := ih (by omega) rfl
      refine ⟨(comma, e) :: tails, .cons (readTail_eq_some.mpr ⟨ts, rfl, ?_, ?_⟩) htails, rfl⟩
      · simp [hkind]
      · exact (hexpr (by omega) e mid).mpr he
    | _ => cases hphrase
  · rintro ⟨tails, htails, rfl⟩
    induction htails with
    | nil h =>
      obtain ⟨rfl, hend⟩ := readTail_eq_none.mp h
      exact .noMore (by rwa [leads_contains_singleton] at hend)
    | @cons tail tails ts mid rest h _ ih =>
      obtain ⟨comma, e⟩ := tail
      obtain ⟨ts, rfl, hkind, he⟩ := readTail_eq_some.mp h
      rw [List.length_cons] at hts
      have he' := (hexpr (by omega) e mid).mp he
      have hmid := he'.length_le
      exact .more (by simpa using hkind) he' (ih (by omega))

/-- A bracketed sequence finds what the grammar derives if its expressions do. -/
theorem finds_readItems (hexpr : expression.Finds n fun e => Derives (.whole e))
    (closing : Symbol) :
    (readItems n expression closing).Finds n fun es => Derives (.items closing es) := by
  intro ts hts es rest
  have hshrinks : ∀ ts e rest, ts.length ≤ n → expression ts = .ok e rest →
      rest.length < ts.length := fun ts e rest hts h => ((hexpr hts e rest).mp h).length_le
  simp only [readItems, bind_eq_ok, nextIs, EStateM.Result.ok.injEq]
  change (∃ a mid, (leads (· == .symbol closing) ts = a ∧ ts = mid) ∧ _) ↔ _
  constructor
  · rintro ⟨next, _, ⟨hnext, rfl⟩, h⟩
    cases next with
    | true =>
      obtain ⟨rfl, rfl⟩ := pure_eq_ok.mp h
      exact .noItems hnext
    | false =>
      simp only [Bool.false_eq_true, if_false, bind_eq_ok, pure_eq_ok] at h
      obtain ⟨first, mid, hfirst, tails, rest, htails, rfl, rfl⟩ := h
      have hfirst' := (hexpr hts first mid).mp hfirst
      have hmid := hfirst'.length_le
      rw [collect_readTail hshrinks (by omega)] at htails
      exact .items hnext hfirst' ((derives_more_iff hexpr (by omega)).mpr ⟨tails, htails, rfl⟩)
  · intro h
    cases h with
    | noItems hnext => exact ⟨true, ts, ⟨hnext, rfl⟩, rfl⟩
    | @items _ first es _ mid _ hnext hfirst hmore =>
      have hmid := hfirst.length_le
      obtain ⟨tails, htails, rfl⟩ := (derives_more_iff hexpr (by omega)).mp hmore
      rw [← collect_readTail hshrinks (by omega)] at htails
      refine ⟨false, ts, ⟨hnext, rfl⟩, ?_⟩
      simp only [Bool.false_eq_true, if_false, bind_eq_ok, pure_eq_ok]
      exact ⟨first, mid, (hexpr hts first mid).mpr hfirst, tails, rest, htails, rfl, rfl⟩

/-- Between brackets, what stands inside is read and the closing symbol behind it. -/
theorem enclosed_eq_ok {α : Type} {inner : Reader α} {D : α → List Token → List Token → Prop}
    (hinner : inner.Finds n D) {closing : Kind} {what : Expectation} {build : α → Expr}
    (hts : ts.length ≤ n) {e : Expr} :
    (do
      let a ← inner
      let _ ← expect closing what
      return build a : Reader Expr) ts = .ok e rest ↔
      ∃ a t, D a ts (t :: rest) ∧ t.kind = closing ∧ build a = e := by
  simp only [bind_eq_ok, pure_eq_ok, expect_eq_ok]
  constructor
  · rintro ⟨a, mid, ha, t, mid', ⟨rfl, ht⟩, rfl, rfl⟩
    exact ⟨a, t, (hinner hts a _).mp ha, ht, rfl⟩
  · rintro ⟨a, t, ha, ht, rfl⟩
    exact ⟨a, _, (hinner hts a _).mpr ha, t, rest, ⟨rfl, ht⟩, rfl, rfl⟩

/-- The end of an index. -/
def closeIndex (index : Expr) : Reader Expr := do
  let _ ← expect (.symbol .rightBracket) .indexEnd
  return index

/-- An index closes exactly at a right bracket. -/
theorem closeIndex_eq_ok {index e : Expr} :
    closeIndex index ts = .ok e rest ↔
      ∃ closing, ts = closing :: rest ∧ closing.kind = .symbol .rightBracket ∧ index = e := by
  rw [closeIndex, bind_eq_ok]
  constructor
  · rintro ⟨closing, mid, hclosing, h⟩
    obtain ⟨rfl, hkind⟩ := expect_eq_ok.mp hclosing
    obtain ⟨rfl, rfl⟩ := pure_eq_ok.mp h
    exact ⟨closing, rfl, hkind, rfl⟩
  · rintro ⟨closing, rfl, hkind, rfl⟩
    exact ⟨closing, rest, expect_eq_ok.mpr ⟨rfl, hkind⟩, rfl⟩

/-- An index is read part by part as long as colons follow. -/
theorem readIndex_eq (expression : Reader Expr) (name : Token) :
    readIndex expression name = (do
      let start ← expression
      match ← accept (.symbol .colon) with
      | none => closeIndex (.element name start)
      | some _ =>
        let stop ← expression
        match ← accept (.symbol .colon) with
        | none => closeIndex (.slice name start stop)
        | some _ =>
          let step ← expression
          closeIndex (.stride name start stop step)) := rfl

/-- What stands in brackets behind a name is read as the grammar derives it. -/
theorem readIndex_eq_ok (hexpr : expression.Finds n fun e => Derives (.whole e))
    {name opening : Token} (hname : name.kind = .identifier)
    (hopening : opening.kind = .symbol .leftBracket) (hts : ts.length ≤ n) {e : Expr} :
    readIndex expression name ts = .ok e rest ↔
      Derives (.primary e) (name :: opening :: ts) rest := by
  rw [readIndex_eq, bind_eq_ok]
  constructor
  · rintro ⟨start, mid, hstart, h⟩
    have hstart' := (hexpr hts start mid).mp hstart
    have hmid := hstart'.length_le
    obtain ⟨colon, after, hcolon, hrest⟩ := bind_eq_ok.mp h
    cases colon with
    | none =>
      obtain ⟨rfl, -⟩ := accept_eq_none.mp hcolon
      obtain ⟨closing, rfl, hclosing, rfl⟩ := closeIndex_eq_ok.mp hrest
      exact .element hname hopening hstart' hclosing
    | some colon =>
      obtain ⟨rfl, hkind⟩ := accept_eq_some.mp hcolon
      rw [List.length_cons] at hmid
      obtain ⟨stop, mid', hstop, hstopped⟩ := bind_eq_ok.mp hrest
      have hstop' := (hexpr (by omega) stop mid').mp hstop
      have hmid' := hstop'.length_le
      obtain ⟨colon', after', hcolon', hlast⟩ := bind_eq_ok.mp hstopped
      cases colon' with
      | none =>
        obtain ⟨rfl, -⟩ := accept_eq_none.mp hcolon'
        obtain ⟨closing, rfl, hclosing, rfl⟩ := closeIndex_eq_ok.mp hlast
        exact .slice hname hopening hstart' hkind hstop' hclosing
      | some colon' =>
        obtain ⟨rfl, hkind'⟩ := accept_eq_some.mp hcolon'
        rw [List.length_cons] at hmid'
        obtain ⟨step, mid'', hstep, hend⟩ := bind_eq_ok.mp hlast
        obtain ⟨closing, rfl, hclosing, rfl⟩ := closeIndex_eq_ok.mp hend
        have hstep' := (hexpr (by omega) step _).mp hstep
        exact .stride hname hopening hstart' hkind hstop' hkind' hstep' hclosing
  · intro h
    have hbracket {closing : Token} {ts : List Token} (h : closing.kind = .symbol .rightBracket) :
        accept (.symbol .colon) (closing :: ts) = .ok none (closing :: ts) :=
      accept_eq_none.mpr ⟨rfl, by simp [h]⟩
    cases h with
    | @element _ _ closing position _ _ _ _ hposition hclosing =>
      refine ⟨position, _, (hexpr hts _ _).mpr hposition, ?_⟩
      refine bind_eq_ok.mpr ⟨none, _, hbracket hclosing, ?_⟩
      exact closeIndex_eq_ok.mpr ⟨closing, rfl, hclosing, rfl⟩
    | @slice _ _ colon closing start stop _ mid _ _ _ hstart hkind hstop hclosing =>
      have hmid := hstart.length_le
      rw [List.length_cons] at hmid
      refine ⟨start, _, (hexpr hts _ _).mpr hstart, ?_⟩
      refine bind_eq_ok.mpr ⟨some colon, mid, accept_eq_some.mpr ⟨rfl, hkind⟩, ?_⟩
      refine bind_eq_ok.mpr ⟨stop, _, (hexpr (by omega) _ _).mpr hstop, ?_⟩
      refine bind_eq_ok.mpr ⟨none, _, hbracket hclosing, ?_⟩
      exact closeIndex_eq_ok.mpr ⟨closing, rfl, hclosing, rfl⟩
    | @stride _ _ colon colon' closing start stop step _ mid mid' _ _ _ hstart hkind hstop hkind'
        hstep hclosing =>
      have hmid := hstart.length_le
      have hmid' := hstop.length_le
      rw [List.length_cons] at hmid hmid'
      refine ⟨start, _, (hexpr hts _ _).mpr hstart, ?_⟩
      refine bind_eq_ok.mpr ⟨some colon, mid, accept_eq_some.mpr ⟨rfl, hkind⟩, ?_⟩
      refine bind_eq_ok.mpr ⟨stop, _, (hexpr (by omega) _ _).mpr hstop, ?_⟩
      refine bind_eq_ok.mpr ⟨some colon', mid', accept_eq_some.mpr ⟨rfl, hkind'⟩, ?_⟩
      refine bind_eq_ok.mpr ⟨step, _, (hexpr (by omega) _ _).mpr hstep, ?_⟩
      exact closeIndex_eq_ok.mpr ⟨closing, rfl, hclosing, rfl⟩
    | «variable» _ hnot _ => simp [hopening] at hnot
    | call _ hparen _ _ => cases hopening.symm.trans hparen
    | literal hvalue => simp [hname, Kind.literal?] at hvalue
    | grouping hkind _ _ => cases hname.symm.trans hkind
    | list hkind _ _ => cases hname.symm.trans hkind

/-- The arguments of a call, behind the opening parenthesis. -/
def readArguments (limit : Nat) (expression : Reader Expr) (name : Token) : Reader Expr := do
  let arguments ← readItems limit expression .rightParen
  let _ ← expect (.symbol .rightParen) .argumentsEnd
  return .call name arguments

/-- The arguments of a call are items up to a right parenthesis. -/
theorem readArguments_eq_ok (hexpr : expression.Finds n fun e => Derives (.whole e))
    {name : Token} (hts : ts.length ≤ n) {e : Expr} :
    readArguments n expression name ts = .ok e rest ↔
      ∃ es closing, Derives (.items .rightParen es) ts (closing :: rest) ∧
        closing.kind = .symbol .rightParen ∧ .call name es = e := by
  exact enclosed_eq_ok (finds_readItems hexpr .rightParen) hts

/-- A name is read with what the next token says about it. -/
theorem readName_eq (limit : Nat) (expression : Reader Expr) (name : Token) :
    readName limit expression name = (do
      match ← accept (.symbol .leftBracket) with
      | some _ => readIndex expression name
      | none =>
        match ← accept (.symbol .leftParen) with
        | some _ => readArguments limit expression name
        | none => return .variable name) := by
  rw [readName]
  refine bind_congr fun bracket => ?_
  cases bracket with
  | some _ => rfl
  | none =>
    refine bind_congr fun paren => ?_
    cases paren with
    | some _ => rfl
    | none => rfl

/-- What a name starts is read as the grammar derives it. -/
theorem readName_eq_ok (hexpr : expression.Finds n fun e => Derives (.whole e)) {name : Token}
    (hname : name.kind = .identifier) (hts : ts.length ≤ n) {e : Expr} :
    readName n expression name ts = .ok e rest ↔ Derives (.primary e) (name :: ts) rest := by
  rw [readName_eq, bind_eq_ok]
  constructor
  · rintro ⟨bracket, after, hbracket, h⟩
    cases bracket with
    | some bracket =>
      obtain ⟨rfl, hkind⟩ := accept_eq_some.mp hbracket
      rw [List.length_cons] at hts
      exact (readIndex_eq_ok hexpr hname hkind (by omega)).mp h
    | none =>
      obtain ⟨rfl, hnot⟩ := accept_eq_none.mp hbracket
      obtain ⟨paren, after, hparen, hrest⟩ := bind_eq_ok.mp h
      cases paren with
      | some paren =>
        obtain ⟨rfl, hkind⟩ := accept_eq_some.mp hparen
        rw [List.length_cons] at hts
        obtain ⟨es, closing, hes, hclosing, rfl⟩ := (readArguments_eq_ok hexpr (by omega)).mp hrest
        exact .call hname hkind hes hclosing
      | none =>
        obtain ⟨rfl, hnot'⟩ := accept_eq_none.mp hparen
        obtain ⟨rfl, rfl⟩ := pure_eq_ok.mp hrest
        exact .variable hname hnot hnot'
  · intro h
    have hindex {opening : Token} {ts : List Token}
        (hopening : opening.kind = .symbol .leftBracket) (hts : (opening :: ts).length ≤ n)
        (h : Derives (.primary e) (name :: opening :: ts) rest) :
        accept (.symbol .leftBracket) (opening :: ts) = .ok (some opening) ts ∧
          readIndex expression name ts = .ok e rest := by
      rw [List.length_cons] at hts
      exact ⟨accept_eq_some.mpr ⟨rfl, hopening⟩,
        (readIndex_eq_ok hexpr hname hopening (by omega)).mpr h⟩
    have hderives := h
    cases h with
    | element _ hopening _ _ => exact ⟨some _, _, hindex hopening hts hderives⟩
    | slice _ hopening _ _ _ _ => exact ⟨some _, _, hindex hopening hts hderives⟩
    | stride _ hopening _ _ _ _ _ _ => exact ⟨some _, _, hindex hopening hts hderives⟩
    | @call _ opening closing es ts _ _ hopening hes hclosing =>
      rw [List.length_cons] at hts
      refine ⟨none, _, accept_eq_none.mpr ⟨rfl, by simp [hopening]⟩, ?_⟩
      refine bind_eq_ok.mpr ⟨some opening, ts, accept_eq_some.mpr ⟨rfl, hopening⟩, ?_⟩
      exact (readArguments_eq_ok hexpr (by omega)).mpr ⟨es, closing, hes, hclosing, rfl⟩
    | «variable» _ hnot hnot' =>
      refine ⟨none, _, accept_eq_none.mpr ⟨rfl, hnot⟩, ?_⟩
      exact bind_eq_ok.mpr ⟨none, _, accept_eq_none.mpr ⟨rfl, hnot'⟩, rfl⟩
    | literal hvalue => simp [hname, Kind.literal?] at hvalue
    | grouping hkind _ _ => cases hname.symm.trans hkind
    | list hkind _ _ => cases hname.symm.trans hkind

/-! ## Primaries -/

/-- A literal token is a primary by itself. -/
theorem readPrimaryFrom_literal {t : Token} {value : Literal} (h : t.kind.literal? = some value) :
    readPrimaryFrom n expression t = some (pure (.literal value)) := by
  unfold Kind.literal? at h
  unfold readPrimaryFrom
  split at h
  · next hkind => simp_all
  · next hkind => simp_all
  · next hkind => simp_all
  · next hkind => simp_all
  · next hkind => simp_all
  · cases h

/-- No primary is tried at a token that cannot start one. -/
theorem readPrimaryFrom_none {t : Token} (h : t.kind.startsPrimary = false) :
    readPrimaryFrom n expression t = none := by
  unfold readPrimaryFrom
  simp only [Kind.startsPrimary, Kind.literal?, Bool.or_eq_false_iff] at h
  split
  all_goals simp_all

/-- At a literal token a primary derives that literal and nothing else. -/
theorem derives_literal_iff {t : Token} {value : Literal} (hvalue : t.kind.literal? = some value)
    {e : Expr} : Derives (.primary e) (t :: ts) rest ↔ .literal value = e ∧ ts = rest := by
  constructor
  · intro h
    cases h with
    | literal h =>
      cases hvalue.symm.trans h
      exact ⟨rfl, rfl⟩
    | _ => simp_all [Kind.literal?]
  · rintro ⟨rfl, rfl⟩
    exact .literal hvalue

/-- At a left parenthesis a primary derives a grouping and nothing else. -/
theorem derives_grouping_iff {t : Token} (hkind : t.kind = .symbol .leftParen) {e : Expr} :
    Derives (.primary e) (t :: ts) rest ↔
      ∃ inner closing, Derives (.whole inner) ts (closing :: rest) ∧
        closing.kind = .symbol .rightParen ∧ .grouping inner = e := by
  constructor
  · intro h
    cases h with
    | grouping _ hinner hclosing => exact ⟨_, _, hinner, hclosing, rfl⟩
    | _ => simp_all [Kind.literal?]
  · rintro ⟨inner, closing, hinner, hclosing, rfl⟩
    exact .grouping hkind hinner hclosing

/-- At a left bracket a primary derives a list and nothing else. -/
theorem derives_list_iff {t : Token} (hkind : t.kind = .symbol .leftBracket) {e : Expr} :
    Derives (.primary e) (t :: ts) rest ↔
      ∃ items closing, Derives (.items .rightBracket items) ts (closing :: rest) ∧
        closing.kind = .symbol .rightBracket ∧ .list items = e := by
  constructor
  · intro h
    cases h with
    | list _ hitems hclosing => exact ⟨_, _, hitems, hclosing, rfl⟩
    | _ => simp_all [Kind.literal?]
  · rintro ⟨items, closing, hitems, hclosing, rfl⟩
    exact .list hkind hitems hclosing

/-- A primary finds what the grammar derives if the expressions inside it do. -/
theorem finds_readPrimary (hexpr : expression.Finds n fun e => Derives (.whole e)) :
    (readPrimary n expression).Finds (n + 1) fun e => Derives (.primary e) := by
  intro ts hts e rest
  cases ts with
  | nil =>
    rw [readPrimary, fail_eq_ok, false_iff]
    exact fun h => absurd h.starts (by simp [Phrase.Starts])
  | cons t ts =>
    rw [List.length_cons] at hts
    have hlength : ts.length ≤ n := by omega
    by_cases hstarts : t.kind.startsPrimary
    · have hcases : (∃ value, t.kind.literal? = some value) ∨ t.kind = .symbol .leftParen ∨
          t.kind = .symbol .leftBracket ∨ t.kind = .identifier := by
        simpa [Kind.startsPrimary, Option.isSome_iff_exists, or_assoc] using hstarts
      rcases hcases with ⟨value, hvalue⟩ | hkind | hkind | hkind
      · simp only [readPrimary, readPrimaryFrom_literal hvalue, pure_eq_ok]
        rw [derives_literal_iff hvalue]
      · have hfrom : readPrimaryFrom n expression t = some (do
            let inner ← expression
            let _ ← expect (.symbol .rightParen) .groupEnd
            return .grouping inner) := by simp [readPrimaryFrom, hkind]
        simp only [readPrimary, hfrom]
        rw [enclosed_eq_ok hexpr hlength, derives_grouping_iff hkind]
      · have hfrom : readPrimaryFrom n expression t = some (do
            let items ← readItems n expression .rightBracket
            let _ ← expect (.symbol .rightBracket) .listEnd
            return .list items) := by simp [readPrimaryFrom, hkind]
        simp only [readPrimary, hfrom]
        rw [enclosed_eq_ok (finds_readItems hexpr .rightBracket) hlength, derives_list_iff hkind]
      · have hfrom : readPrimaryFrom n expression t = some (readName n expression t) := by
          simp [readPrimaryFrom, hkind]
        simp only [readPrimary, hfrom]
        exact readName_eq_ok hexpr hkind hlength
    · have hstarts' : t.kind.startsPrimary = false := by simpa using hstarts
      simp only [readPrimary, readPrimaryFrom_none hstarts', fail_eq_ok, false_iff]
      intro h
      have hderives : t.kind.startsPrimary = true := h.starts
      exact hstarts hderives

/-! ## Whole expressions -/

/-- From the `i`-th level on. -/
theorem finds_levels (hprimary : (readPrimary n expression).Finds (n + 1) fun e =>
    Derives (.primary e)) (i : Nat) :
    ((levels.drop i).foldr (readLevel n) (readPrefixed n (readPrimary n expression))).Finds (n + 1)
      fun e => Derives (.operation i e) := by
  by_cases hi : i < levels.length
  · rw [List.drop_eq_getElem_cons hi, List.foldr_cons]
    exact finds_readLevel (List.getElem?_eq_getElem hi) (finds_levels hprimary (i + 1))
  · have hnone : levels[i]? = none := List.getElem?_eq_none (by omega)
    rw [List.drop_of_length_le (by omega), List.foldr_nil]
    intro ts hts e rest
    refine (finds_readPrefixed hprimary hts e rest).trans ?_
    constructor
    · exact .tightest hnone
    · intro h
      cases h with
      | level hlevel _ _ => cases hnone.symm.trans hlevel
      | tightest _ h => exact h
termination_by levels.length - i

/-- An assignment finds what the grammar derives if the expressions inside it do. -/
theorem finds_readAssignment (hexpr : expression.Finds n fun e => Derives (.whole e)) :
    (readAssignment n expression).Finds (n + 1) fun e => Derives (.whole e) := by
  intro ts hts e rest
  have htarget := finds_levels (finds_readPrimary hexpr) 0 hts
  rw [List.drop_zero] at htarget
  rw [readAssignment, bind_eq_ok]
  constructor
  · rintro ⟨target, mid, h, hrest⟩
    have htarget' := (htarget target mid).mp h
    have hmid := htarget'.length_le
    obtain ⟨sign, after, hsign, hvalue⟩ := bind_eq_ok.mp hrest
    cases sign with
    | none =>
      obtain ⟨rfl, hnot⟩ := accept_eq_none.mp hsign
      obtain ⟨rfl, rfl⟩ := pure_eq_ok.mp hvalue
      exact .operation htarget' hnot
    | some sign =>
      obtain ⟨rfl, hkind⟩ := accept_eq_some.mp hsign
      rw [List.length_cons] at hmid
      obtain ⟨value, after', hvalue', hend⟩ := bind_eq_ok.mp hvalue
      have hvalue'' := (hexpr (by omega) value after').mp hvalue'
      cases target with
      | «variable» name =>
        obtain ⟨rfl, rfl⟩ := pure_eq_ok.mp hend
        exact .assign htarget' hkind hvalue''
      | _ => cases hend
  · intro h
    cases h with
    | operation htarget' hnot =>
      refine ⟨e, rest, (htarget e rest).mpr htarget', ?_⟩
      exact bind_eq_ok.mpr ⟨none, rest, accept_eq_none.mpr ⟨rfl, hnot⟩, rfl⟩
    | @assign name sign value _ mid _ htarget' hkind hvalue =>
      have hmid := htarget'.length_le
      rw [List.length_cons] at hmid
      refine ⟨.variable name, _, (htarget _ _).mpr htarget', ?_⟩
      refine bind_eq_ok.mpr ⟨some sign, mid, accept_eq_some.mpr ⟨rfl, hkind⟩, ?_⟩
      exact bind_eq_ok.mpr ⟨value, rest, (hexpr (by omega) value rest).mpr hvalue, rfl⟩

end

/-- Reading finds exactly the expressions that the grammar derives, if the limit is at least the
number of tokens. -/
theorem finds_read (limit : Nat) : (read limit).Finds limit fun e => Derives (.whole e) := by
  induction limit with
  | zero =>
    intro ts hts e rest
    rw [List.length_eq_zero_iff.mp (Nat.le_zero.mp hts), read, fail_eq_ok, false_iff]
    exact fun h => absurd h.starts (by simp [Phrase.Starts])
  | succ limit ih => exact finds_readAssignment ih

end Offside.Expr
