import Offside.Proofs.BlockReading

/-!
# Reading compound statements

Behind its keyword, a compound statement is read without an error exactly if the grammar derives it,
if that is so for the statements in its bodies.
-/

namespace Offside

namespace Stmt

open Offside.Parser Reader

variable {n : Nat} {statement : Parser Stmt} {ts rest : List Token} {errors : List SyntaxError}

/-- Without reports a branch is read exactly if the grammar derives it. -/
theorem readBranch_eq_clean (hgrows : statement.Grows)
    (hfinds : statement.Finds n fun s => Derives (.one s)) {keyword : Token}
    (hkind : keyword.kind = .keyword .if_) (hts : ts.length < n) {s : Stmt} :
    readBranch n statement ⟨ts, errors⟩ = .ok s ⟨rest, errors⟩ ↔
      Derives (.one s) (keyword :: ts) rest := by
  refine Iff.trans reader_bind_eq_clean ?_
  constructor
  · rintro ⟨condition, mid, hcondition, h⟩
    have hcondition' := (Expr.finds_read n (by omega) _ _).mp hcondition
    have hmid := hcondition'.length_le
    obtain ⟨body, mid', hbody, h⟩ := (bind_eq_clean (grows_readBody n hgrows _) fun _ =>
      (grows_readAlternative n hgrows n).bind fun _ => Grows.pure _).mp h
    have hbody' := (finds_readBody hgrows hfinds _ (by omega) errors _ _).mp hbody
    have hmid' := hbody'.length_le
    obtain ⟨otherwise, mid'', hotherwise, hend⟩ :=
      (bind_eq_clean (grows_readAlternative n hgrows n) fun _ => Grows.pure _).mp h
    cases hend
    exact .branch hkind hcondition' hbody'
      ((readAlternative_eq_clean hgrows hfinds (by omega) (by omega)).mp hotherwise)
  · intro h
    have hstarts : s.startsWith keyword.kind = true := h.startsWith
    rw [hkind] at hstarts
    cases s with
    | branch condition body otherwise =>
      cases h with
      | @branch _ _ _ _ _ mid mid' _ _ hcondition hbody hotherwise =>
        have hmid := hcondition.length_le
        have hmid' := hbody.length_le
        refine ⟨condition, mid, (Expr.finds_read n (by omega) _ _).mpr hcondition, ?_⟩
        refine (bind_eq_clean (grows_readBody n hgrows _) fun _ =>
          (grows_readAlternative n hgrows n).bind fun _ => Grows.pure _).mpr
          ⟨body, mid', (finds_readBody hgrows hfinds _ (by omega) errors _ _).mpr hbody, ?_⟩
        exact (bind_eq_clean (grows_readAlternative n hgrows n) fun _ => Grows.pure _).mpr
          ⟨otherwise, rest,
            (readAlternative_eq_clean hgrows hfinds (by omega) (by omega)).mpr hotherwise, rfl⟩
    | _ => cases hstarts

/-- Without reports a while loop is read exactly if the grammar derives it. -/
theorem readLoop_eq_clean (hgrows : statement.Grows)
    (hfinds : statement.Finds n fun s => Derives (.one s)) {keyword : Token}
    (hkind : keyword.kind = .keyword .while_) (hts : ts.length < n) {s : Stmt} :
    readLoop n statement ⟨ts, errors⟩ = .ok s ⟨rest, errors⟩ ↔
      Derives (.one s) (keyword :: ts) rest := by
  refine Iff.trans reader_bind_eq_clean ?_
  constructor
  · rintro ⟨condition, mid, hcondition, h⟩
    have hcondition' := (Expr.finds_read n (by omega) _ _).mp hcondition
    have hmid := hcondition'.length_le
    obtain ⟨body, mid', hbody, hend⟩ :=
      (bind_eq_clean (grows_readBody n hgrows _) fun _ => Grows.pure _).mp h
    cases hend
    exact .loop hkind hcondition' ((finds_readBody hgrows hfinds _ (by omega) errors _ _).mp hbody)
  · intro h
    have hstarts : s.startsWith keyword.kind = true := h.startsWith
    rw [hkind] at hstarts
    cases s with
    | loop condition body =>
      cases h with
      | @loop _ _ _ _ mid _ _ hcondition hbody =>
        have hmid := hcondition.length_le
        refine ⟨condition, mid, (Expr.finds_read n (by omega) _ _).mpr hcondition, ?_⟩
        exact (bind_eq_clean (grows_readBody n hgrows _) fun _ => Grows.pure _).mpr
          ⟨body, rest, (finds_readBody hgrows hfinds _ (by omega) errors _ _).mpr hbody, rfl⟩
    | _ => cases hstarts

/-- The end of the bounds of a counting loop. -/
def closeRange (bounds : Option Expr × Expr × Option Expr) :
    Reader (Option Expr × Expr × Option Expr) := do
  let _ ← expect (.symbol .rightParen) .rangeEnd
  return bounds

/-- Behind the bounds of a range stands a closing parenthesis. -/
theorem closeRange_eq_ok {bounds found : Option Expr × Expr × Option Expr} :
    closeRange bounds ts = .ok found rest ↔
      ∃ closing, ts = closing :: rest ∧ closing.kind = .symbol .rightParen ∧ bounds = found := by
  simp only [closeRange, bind_eq_ok, pure_eq_ok, expect_eq_ok]
  constructor
  · rintro ⟨closing, mid, ⟨rfl, hkind⟩, rfl, rfl⟩
    exact ⟨closing, rfl, hkind, rfl⟩
  · rintro ⟨closing, rfl, hkind, rfl⟩
    exact ⟨closing, rest, ⟨rfl, hkind⟩, rfl, rfl⟩

/-- Bounds are read one by one as long as commas follow. -/
theorem readRange_eq (limit : Nat) :
    readRange limit = (do
      let _ ← expect (.symbol .leftParen) .rangeStart
      let first ← Expr.read limit
      match ← accept (.symbol .comma) with
      | none => closeRange (none, first, none)
      | some _ =>
        let second ← Expr.read limit
        match ← accept (.symbol .comma) with
        | none => closeRange (some first, second, none)
        | some _ =>
          let third ← Expr.read limit
          closeRange (some first, second, some third)) := rfl

/-- Reading the bounds of a range finds those of the grammar. -/
theorem finds_readRange (n : Nat) :
    (readRange n).Finds n fun bounds => DerivesRange bounds.1 bounds.2.1 bounds.2.2 := by
  intro ts hts bounds rest
  rw [readRange_eq, bind_eq_ok]
  constructor
  · rintro ⟨opening, mid, hopening, h⟩
    obtain ⟨rfl, hopening'⟩ := expect_eq_ok.mp hopening
    rw [List.length_cons] at hts
    obtain ⟨first, mid', hfirst, hrest⟩ := bind_eq_ok.mp h
    have hfirst' := (Expr.finds_read n (by omega) _ _).mp hfirst
    have hmid := hfirst'.length_le
    obtain ⟨_ | comma, after, hcomma, hsecond⟩ := bind_eq_ok.mp hrest
    · obtain ⟨rfl, -⟩ := accept_eq_none.mp hcomma
      obtain ⟨closing, rfl, hclosing, rfl⟩ := closeRange_eq_ok.mp hsecond
      exact .stop hopening' hfirst' hclosing
    · obtain ⟨rfl, hcomma'⟩ := accept_eq_some.mp hcomma
      rw [List.length_cons] at hmid
      obtain ⟨second, mid'', hsecond, hlast⟩ := bind_eq_ok.mp hsecond
      have hsecond' := (Expr.finds_read n (by omega) _ _).mp hsecond
      have hmid' := hsecond'.length_le
      obtain ⟨_ | comma', after', hcomma'', hthird⟩ := bind_eq_ok.mp hlast
      · obtain ⟨rfl, -⟩ := accept_eq_none.mp hcomma''
        obtain ⟨closing, rfl, hclosing, rfl⟩ := closeRange_eq_ok.mp hthird
        exact .start hopening' hfirst' hcomma' hsecond' hclosing
      · obtain ⟨rfl, hcomma'''⟩ := accept_eq_some.mp hcomma''
        rw [List.length_cons] at hmid'
        obtain ⟨third, last, hthird, hend⟩ := bind_eq_ok.mp hthird
        have hthird' := (Expr.finds_read n (by omega) _ _).mp hthird
        obtain ⟨closing, rfl, hclosing, rfl⟩ := closeRange_eq_ok.mp hend
        exact .step hopening' hfirst' hcomma' hsecond' hcomma''' hthird' hclosing
  · intro h
    obtain ⟨start, stop, step⟩ := bounds
    have hparen {closing : Token} {ts : List Token} (h : closing.kind = .symbol .rightParen) :
        accept (.symbol .comma) (closing :: ts) = .ok none (closing :: ts) :=
      accept_eq_none.mpr ⟨rfl, by simp [h]⟩
    cases h with
    | @stop opening closing _ ts _ hopening hstop hclosing =>
      rw [List.length_cons] at hts
      refine ⟨opening, ts, expect_eq_ok.mpr ⟨rfl, hopening⟩, ?_⟩
      refine bind_eq_ok.mpr ⟨stop, _, (Expr.finds_read n (by omega) _ _).mpr hstop, ?_⟩
      refine bind_eq_ok.mpr ⟨none, _, hparen hclosing, ?_⟩
      exact closeRange_eq_ok.mpr ⟨closing, rfl, hclosing, rfl⟩
    | @start opening comma closing start _ ts mid _ hopening hstart hcomma hstop hclosing =>
      have hmid := hstart.length_le
      rw [List.length_cons] at hts hmid
      refine ⟨opening, ts, expect_eq_ok.mpr ⟨rfl, hopening⟩, ?_⟩
      refine bind_eq_ok.mpr ⟨start, _, (Expr.finds_read n (by omega) _ _).mpr hstart, ?_⟩
      refine bind_eq_ok.mpr ⟨some comma, mid, accept_eq_some.mpr ⟨rfl, hcomma⟩, ?_⟩
      refine bind_eq_ok.mpr ⟨stop, _, (Expr.finds_read n (by omega) _ _).mpr hstop, ?_⟩
      refine bind_eq_ok.mpr ⟨none, _, hparen hclosing, ?_⟩
      exact closeRange_eq_ok.mpr ⟨closing, rfl, hclosing, rfl⟩
    | @step opening comma comma' closing start _ step ts mid mid' _ hopening hstart hcomma hstop
        hcomma' hstep hclosing =>
      have hmid := hstart.length_le
      have hmid' := hstop.length_le
      rw [List.length_cons] at hts hmid hmid'
      refine ⟨opening, ts, expect_eq_ok.mpr ⟨rfl, hopening⟩, ?_⟩
      refine bind_eq_ok.mpr ⟨start, _, (Expr.finds_read n (by omega) _ _).mpr hstart, ?_⟩
      refine bind_eq_ok.mpr ⟨some comma, mid, accept_eq_some.mpr ⟨rfl, hcomma⟩, ?_⟩
      refine bind_eq_ok.mpr ⟨stop, _, (Expr.finds_read n (by omega) _ _).mpr hstop, ?_⟩
      refine bind_eq_ok.mpr ⟨some comma', mid', accept_eq_some.mpr ⟨rfl, hcomma'⟩, ?_⟩
      refine bind_eq_ok.mpr ⟨step, _, (Expr.finds_read n (by omega) _ _).mpr hstep, ?_⟩
      exact closeRange_eq_ok.mpr ⟨closing, rfl, hclosing, rfl⟩

/-- Without reports a for loop over a range or over a value is read exactly if the grammar derives
it. -/
theorem readFor_eq_clean (hgrows : statement.Grows)
    (hfinds : statement.Finds n fun s => Derives (.one s)) {keyword : Token}
    (hkind : keyword.kind = .keyword .for_) (hts : ts.length < n) {s : Stmt} :
    readFor n statement ⟨ts, errors⟩ = .ok s ⟨rest, errors⟩ ↔
      Derives (.one s) (keyword :: ts) rest := by
  refine Iff.trans reader_bind_eq_clean ?_
  constructor
  · rintro ⟨name, mid, hname, h⟩
    obtain ⟨rfl, hname'⟩ := expect_eq_ok.mp hname
    obtain ⟨in_, mid', hin, hrest⟩ := reader_bind_eq_clean.mp h
    obtain ⟨rfl, hin'⟩ := expect_eq_ok.mp hin
    simp only [List.length_cons] at hts
    obtain ⟨_ | range, mid'', hrange, hloop⟩ := reader_bind_eq_clean.mp hrest
    · obtain ⟨rfl, -⟩ := accept_eq_none.mp hrange
      obtain ⟨iterable, after, hiterable, hbody⟩ := reader_bind_eq_clean.mp hloop
      have hiterable' := (Expr.finds_read n (by omega) _ _).mp hiterable
      have hafter := hiterable'.length_le
      obtain ⟨body, last, hbody, hend⟩ :=
        (bind_eq_clean (grows_readBody n hgrows _) fun _ => Grows.pure _).mp hbody
      cases hend
      exact .forEach hkind hname' hin' hiterable'
        ((finds_readBody hgrows hfinds _ (by omega) errors _ _).mp hbody)
    · obtain ⟨rfl, hrange'⟩ := accept_eq_some.mp hrange
      rw [List.length_cons] at hts
      obtain ⟨bounds, after, hbounds, hbody⟩ := reader_bind_eq_clean.mp hloop
      have hbounds' := (finds_readRange n (by omega) _ _).mp hbounds
      have hafter := hbounds'.length_le
      obtain ⟨body, last, hbody, hend⟩ :=
        (bind_eq_clean (grows_readBody n hgrows _) fun _ => Grows.pure _).mp hbody
      cases hend
      exact .forRange hkind hname' hin' hrange' hbounds'
        ((finds_readBody hgrows hfinds _ (by omega) errors _ _).mp hbody)
  · intro h
    have hstarts : s.startsWith keyword.kind = true := h.startsWith
    rw [hkind] at hstarts
    cases s with
    | forRange name start stop step body =>
      cases h with
      | @forRange _ _ in_ range _ _ _ _ ts mid _ _ hname hin hrange hbounds hbody =>
        have hmid := hbounds.length_le
        simp only [List.length_cons] at hts
        refine ⟨name, in_ :: range :: ts, expect_eq_ok.mpr ⟨rfl, hname⟩, ?_⟩
        refine reader_bind_eq_clean.mpr ⟨in_, range :: ts, expect_eq_ok.mpr ⟨rfl, hin⟩, ?_⟩
        refine reader_bind_eq_clean.mpr ⟨some range, ts, accept_eq_some.mpr ⟨rfl, hrange⟩, ?_⟩
        refine reader_bind_eq_clean.mpr ⟨(start, stop, step), mid,
          (finds_readRange n (by omega) _ _).mpr hbounds, ?_⟩
        exact (bind_eq_clean (grows_readBody n hgrows _) fun _ => Grows.pure _).mpr
          ⟨body, rest, (finds_readBody hgrows hfinds _ (by omega) errors _ _).mpr hbody, rfl⟩
    | forEach name iterable body =>
      cases h with
      | @forEach _ _ in_ _ _ ts mid _ _ hname hin hiterable hbody =>
        have hmid := hiterable.length_le
        simp only [List.length_cons] at hts
        have hnot : leads (· == .keyword .range_) ts = false := by
          cases ts with
          | nil => rfl
          | cons t ts =>
            have hstarts' : t.kind.startsExpr = true := hiterable.starts
            rw [leads_cons, beq_eq_false_iff_ne]
            intro heq
            rw [heq] at hstarts'
            exact absurd hstarts' (by decide)
        refine ⟨name, in_ :: ts, expect_eq_ok.mpr ⟨rfl, hname⟩, ?_⟩
        refine reader_bind_eq_clean.mpr ⟨in_, ts, expect_eq_ok.mpr ⟨rfl, hin⟩, ?_⟩
        refine reader_bind_eq_clean.mpr ⟨none, ts, accept_eq_none.mpr ⟨rfl, hnot⟩, ?_⟩
        refine reader_bind_eq_clean.mpr ⟨iterable, mid,
          (Expr.finds_read n (by omega) _ _).mpr hiterable, ?_⟩
        exact (bind_eq_clean (grows_readBody n hgrows _) fun _ => Grows.pure _).mpr
          ⟨body, rest, (finds_readBody hgrows hfinds _ (by omega) errors _ _).mpr hbody, rfl⟩
    | _ => cases hstarts

/-- There is no further parameter exactly if no comma follows. -/
theorem readParameterTail_eq_none :
    readParameterTail ts = .ok none rest ↔ rest = ts ∧ leads (· == .symbol .comma) ts = false := by
  rw [← accept_eq_none, readParameterTail, bind_eq_ok]
  constructor
  · rintro ⟨_ | comma, mid, haccept, h⟩
    · cases h
      exact haccept
    · obtain ⟨name, mid', -, h⟩ := bind_eq_ok.mp h
      cases h
  · exact fun h => ⟨none, rest, h, rfl⟩

/-- There is a further parameter exactly if a comma and a name follow. -/
theorem readParameterTail_eq_some {name : Token} :
    readParameterTail ts = .ok (some name) rest ↔
      ∃ comma, ts = comma :: name :: rest ∧ comma.kind = .symbol .comma ∧
        name.kind = .identifier := by
  rw [readParameterTail, bind_eq_ok]
  constructor
  · rintro ⟨_ | comma, mid, haccept, h⟩
    · cases h
    · obtain ⟨rfl, hcomma⟩ := accept_eq_some.mp haccept
      obtain ⟨name', mid', hname, hend⟩ := bind_eq_ok.mp h
      obtain ⟨rfl, hname'⟩ := expect_eq_ok.mp hname
      cases hend
      exact ⟨comma, rfl, hcomma, hname'⟩
  · rintro ⟨comma, rfl, hcomma, hname⟩
    refine ⟨some comma, name :: rest, accept_eq_some.mpr ⟨rfl, hcomma⟩, ?_⟩
    exact bind_eq_ok.mpr ⟨name, rest, expect_eq_ok.mpr ⟨rfl, hname⟩, rfl⟩

/-- Reading on as long as parameters follow finds the names separated by commas. -/
theorem collect_readParameterTail {limit : Nat} (hts : ts.length ≤ limit) {names : List Token} :
    collect readParameterTail [] limit ts = .ok names rest ↔ DerivesNames names ts rest := by
  rw [collect_eq_ok List.length _ _ hts]
  · constructor
    · intro h
      induction h with
      | nil h =>
        obtain ⟨rfl, hend⟩ := readParameterTail_eq_none.mp h
        exact .nil hend
      | cons h _ ih =>
        obtain ⟨comma, rfl, hcomma, hname⟩ := readParameterTail_eq_some.mp h
        simp only [List.length_cons] at hts
        exact .cons hcomma hname (ih (by omega))
    · intro h
      induction h with
      | nil hend => exact .nil (readParameterTail_eq_none.mpr ⟨rfl, hend⟩)
      | @cons comma name names ts rest hcomma hname _ ih =>
        simp only [List.length_cons] at hts
        exact .cons (readParameterTail_eq_some.mpr ⟨comma, rfl, hcomma, hname⟩) (ih (by omega))
  · intro s name s' _ h
    obtain ⟨comma, rfl, -⟩ := readParameterTail_eq_some.mp h
    simp only [List.length_cons]
    omega
  · intro s hs
    rw [List.length_eq_zero_iff.mp hs]
    exact readParameterTail_eq_none.mpr ⟨rfl, rfl⟩

/-- Reading parameters finds those of the grammar. -/
theorem finds_readParameters (n : Nat) :
    (readParameters n).Finds n fun parameters => DerivesParameters parameters := by
  intro ts hts parameters rest
  rw [readParameters, bind_eq_ok]
  constructor
  · rintro ⟨opening, mid, hopening, h⟩
    obtain ⟨rfl, hopening'⟩ := expect_eq_ok.mp hopening
    rw [List.length_cons] at hts
    obtain ⟨names, mid', hnames, hrest⟩ := bind_eq_ok.mp h
    obtain ⟨closing, mid'', hclosing, hend⟩ := bind_eq_ok.mp hrest
    obtain ⟨rfl, hclosing'⟩ := expect_eq_ok.mp hclosing
    cases hend
    obtain ⟨next, mid'', hnext, hfirst⟩ := bind_eq_ok.mp hnames
    cases hnext
    cases hparen : leads (· == .symbol .rightParen) mid with
    | true =>
      change (if leads (· == .symbol .rightParen) mid then pure [] else _ :
        Reader (List Token)) mid = _ at hfirst
      rw [hparen] at hfirst
      cases hfirst
      exact .none hopening' hclosing'
    | false =>
      change (if leads (· == .symbol .rightParen) mid then pure [] else _ :
        Reader (List Token)) mid = _ at hfirst
      rw [hparen] at hfirst
      obtain ⟨name, after, hname, hmore⟩ := bind_eq_ok.mp hfirst
      obtain ⟨rfl, hname'⟩ := expect_eq_ok.mp hname
      rw [List.length_cons] at hts
      obtain ⟨names, after', hnames', hend⟩ := bind_eq_ok.mp hmore
      cases hend
      exact .some hopening' hname' ((collect_readParameterTail (by omega)).mp hnames') hclosing'
  · intro h
    cases h with
    | @none opening closing _ hopening hclosing =>
      refine ⟨opening, closing :: rest, expect_eq_ok.mpr ⟨rfl, hopening⟩, ?_⟩
      refine bind_eq_ok.mpr ⟨[], closing :: rest, ?_, ?_⟩
      · simp [readParameterNames, nextIs, hclosing, bind_eq_ok, pure_eq_ok]
      · exact bind_eq_ok.mpr ⟨closing, rest, expect_eq_ok.mpr ⟨rfl, hclosing⟩, rfl⟩
    | @some opening name closing names ts _ hopening hname hnames hclosing =>
      simp only [List.length_cons] at hts
      refine ⟨opening, name :: ts, expect_eq_ok.mpr ⟨rfl, hopening⟩, ?_⟩
      refine bind_eq_ok.mpr ⟨name :: names, closing :: rest, ?_, ?_⟩
      · refine bind_eq_ok.mpr ⟨false, name :: ts, by simp [nextIs, hname], ?_⟩
        refine bind_eq_ok.mpr ⟨name, ts, expect_eq_ok.mpr ⟨rfl, hname⟩, ?_⟩
        have hlimit : ts.length ≤ n := by omega
        have hmore := (collect_readParameterTail hlimit).mpr hnames
        exact bind_eq_ok.mpr ⟨names, closing :: rest, hmore, rfl⟩
      · exact bind_eq_ok.mpr ⟨closing, rest, expect_eq_ok.mpr ⟨rfl, hclosing⟩, rfl⟩

/-- Without reports the definition of a function is read exactly if the grammar derives it. -/
theorem readDefinition_eq_clean (hgrows : statement.Grows)
    (hfinds : statement.Finds n fun s => Derives (.one s)) {keyword : Token}
    (hkind : keyword.kind = .keyword .def_) (hts : ts.length < n) {s : Stmt} :
    readDefinition n statement ⟨ts, errors⟩ = .ok s ⟨rest, errors⟩ ↔
      Derives (.one s) (keyword :: ts) rest := by
  refine Iff.trans reader_bind_eq_clean ?_
  constructor
  · rintro ⟨name, mid, hname, h⟩
    obtain ⟨rfl, hname'⟩ := expect_eq_ok.mp hname
    rw [List.length_cons] at hts
    obtain ⟨parameters, mid', hparameters, hrest⟩ := reader_bind_eq_clean.mp h
    have hparameters' := (finds_readParameters n (by omega) _ _).mp hparameters
    have hmid := hparameters'.length_le
    obtain ⟨body, last, hbody, hend⟩ :=
      (bind_eq_clean (grows_readBody n hgrows _) fun _ => Grows.pure _).mp hrest
    cases hend
    exact .define hkind hname' hparameters'
      ((finds_readBody hgrows hfinds _ (by omega) errors _ _).mp hbody)
  · intro h
    have hstarts : s.startsWith keyword.kind = true := h.startsWith
    rw [hkind] at hstarts
    cases s with
    | define name parameters body =>
      cases h with
      | @define _ _ _ _ ts mid _ _ hname hparameters hbody =>
        have hmid := hparameters.length_le
        rw [List.length_cons] at hts
        refine ⟨name, ts, expect_eq_ok.mpr ⟨rfl, hname⟩, ?_⟩
        refine reader_bind_eq_clean.mpr ⟨parameters, mid,
          (finds_readParameters n (by omega) _ _).mpr hparameters, ?_⟩
        exact (bind_eq_clean (grows_readBody n hgrows _) fun _ => Grows.pure _).mpr
          ⟨body, rest, (finds_readBody hgrows hfinds _ (by omega) errors _ _).mpr hbody, rfl⟩
    | _ => cases hstarts

end Stmt

end Offside
