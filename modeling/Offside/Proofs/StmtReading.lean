import Offside.Proofs.CompoundReading

/-!
# Reading programs follows the grammar

A parser that records no error has found exactly what the grammar derives: first for statements that
fill a line, then for every statement by its first token, and so for a whole token stream.
-/

namespace Offside

namespace Stmt

open Offside.Parser Reader

variable {n : Nat} {statement : Parser Stmt} {ts rest : List Token} {errors : List SyntaxError}

/-! ## Statements that fill a line -/

/-- A return has a value unless the line or the block ends behind the keyword. -/
theorem readReturn_apply (limit : Nat) (keyword : Token) (ts : List Token) :
    readReturn limit keyword ts =
      if leads (fun kind => kind != .newline && kind != .dedent) ts then
        (do
          let value ← Expr.read limit
          skipNewlines
          return .return keyword (some value) : Reader Stmt) ts
      else .ok (.return keyword none) (dropNewlines ts) := by
  cases ts with
  | nil => rfl
  | cons t ts =>
    obtain ⟨kind, lexeme, line, span⟩ := t
    cases kind with
    | newline => rfl
    | dedent => rfl
    | _ => exact congrFun (bind_map_left some (Expr.read limit) _) _

/-- What starts an expression ends no line. -/
theorem startsExpr_ends (kind : Kind) (h : kind.startsExpr) :
    kind != .newline && kind != .dedent := by
  cases kind with
  | newline => exact absurd h (by decide)
  | dedent => exact absurd h (by decide)
  | _ => rfl

/-- A return statement is read exactly where the grammar derives one. -/
theorem readReturn_eq_ok {keyword : Token} (hkind : keyword.kind = .keyword .return_)
    (hts : ts.length ≤ n) {s : Stmt} :
    readReturn n keyword ts = .ok s rest ↔ Derives (.one s) (keyword :: ts) rest := by
  rw [readReturn_apply]
  cases hvalue : leads (fun kind => kind != .newline && kind != .dedent) ts with
  | false =>
    simp only [Bool.false_eq_true, if_false, EStateM.Result.ok.injEq]
    constructor
    · rintro ⟨rfl, rfl⟩
      exact .returnNothing hkind hvalue
    · intro h
      have hstarts : s.startsWith keyword.kind = true := h.startsWith
      rw [hkind] at hstarts
      cases s with
      | «return» keyword value =>
        cases h with
        | returnNothing _ _ => exact ⟨rfl, rfl⟩
        | returnValue _ h =>
          rw [leads_mono startsExpr_ends h.starts] at hvalue
          cases hvalue
      | _ => cases hstarts
  | true =>
    simp only [if_true, bind_eq_ok]
    constructor
    · rintro ⟨value, mid, h, _, mid', hskip, hend⟩
      obtain rfl := skipNewlines_eq_ok.mp hskip
      cases hend
      exact .returnValue hkind ((Expr.finds_read n hts _ _).mp h)
    · intro h
      have hstarts : s.startsWith keyword.kind = true := h.startsWith
      rw [hkind] at hstarts
      cases s with
      | «return» keyword value =>
        cases h with
        | returnNothing _ h =>
          rw [hvalue] at h
          cases h
        | @returnValue _ value _ mid _ h =>
          exact ⟨value, mid, (Expr.finds_read n hts _ _).mpr h, (), _, rfl, rfl⟩
      | _ => cases hstarts

/-- A print statement is read exactly where the grammar derives one. -/
theorem readPrint_eq_ok {keyword : Token} (hkind : keyword.kind = .keyword .print_)
    (hts : ts.length ≤ n) {s : Stmt} :
    readPrint n keyword ts = .ok s rest ↔ Derives (.one s) (keyword :: ts) rest := by
  rw [readPrint, bind_eq_ok]
  constructor
  · rintro ⟨opening, mid, hopening, h⟩
    obtain ⟨rfl, hopening'⟩ := expect_eq_ok.mp hopening
    rw [List.length_cons] at hts
    obtain ⟨value, mid', hvalue, hrest⟩ := bind_eq_ok.mp h
    have hvalue' := (Expr.finds_read n (by omega) _ _).mp hvalue
    obtain ⟨closing, mid'', hclosing, hrest'⟩ := bind_eq_ok.mp hrest
    obtain ⟨rfl, hclosing'⟩ := expect_eq_ok.mp hclosing
    cases hrest'
    exact .print hkind hopening' hvalue' hclosing'
  · intro h
    have hstarts : s.startsWith keyword.kind = true := h.startsWith
    rw [hkind] at hstarts
    cases s with
    | print keyword value =>
      cases h with
      | @print _ opening closing _ ts mid _ hopening hvalue hclosing =>
        rw [List.length_cons] at hts
        refine ⟨opening, ts, expect_eq_ok.mpr ⟨rfl, hopening⟩, ?_⟩
        refine bind_eq_ok.mpr ⟨value, _, (Expr.finds_read n (by omega) _ _).mpr hvalue, ?_⟩
        exact bind_eq_ok.mpr ⟨closing, mid, expect_eq_ok.mpr ⟨rfl, hclosing⟩, rfl⟩
    | _ => cases hstarts

/-- An assignment is read exactly where the grammar derives one. -/
theorem readAssign_eq_ok {name sign : Token} (hname : name.kind = .identifier)
    (hsign : sign.kind = .symbol .equal) (hts : ts.length ≤ n) {s : Stmt} :
    readAssign n name (sign :: ts) = .ok s rest ↔ Derives (.one s) (name :: sign :: ts) rest := by
  rw [readAssign, bind_eq_ok]
  constructor
  · rintro ⟨sign', mid, hsign', h⟩
    obtain ⟨heq, -⟩ := expect_eq_ok.mp hsign'
    cases heq
    obtain ⟨value, mid', hvalue, hrest⟩ := bind_eq_ok.mp h
    cases hrest
    exact .assign hname hsign ((Expr.finds_read n hts _ _).mp hvalue)
  · intro h
    refine ⟨sign, ts, expect_eq_ok.mpr ⟨rfl, hsign⟩, ?_⟩
    cases h with
    | @assign _ _ value _ mid _ _ hvalue =>
      exact bind_eq_ok.mpr ⟨value, mid, (Expr.finds_read n hts _ _).mpr hvalue, rfl⟩
    | expression _ h => simp [startsAssignment, hname, hsign] at h
    | nested hkind _ => cases hname.symm.trans hkind
    | print hkind _ _ _ => cases hname.symm.trans hkind
    | returnNothing hkind _ => cases hname.symm.trans hkind
    | returnValue hkind _ => cases hname.symm.trans hkind
    | branch hkind _ _ _ => cases hname.symm.trans hkind
    | loop hkind _ _ => cases hname.symm.trans hkind
    | forRange hkind _ _ _ _ _ => cases hname.symm.trans hkind
    | forEach hkind _ _ _ _ => cases hname.symm.trans hkind
    | define hkind _ _ _ => cases hname.symm.trans hkind

/-- Where no other form starts, an expression is read. -/
theorem readExpression_eq_ok (hassign : startsAssignment ts = false)
    (hform : leads startsForm ts = false) (hts : ts.length ≤ n) {s : Stmt} :
    readExpression n ts = .ok s rest ↔ Derives (.one s) ts rest := by
  rw [readExpression, bind_eq_ok]
  constructor
  · rintro ⟨value, mid, hvalue, h⟩
    cases h
    exact .expression ((Expr.finds_read n hts _ _).mp hvalue) hassign
  · intro h
    have hother (hstarts : ∀ kind, s.startsWith kind → startsForm kind) : False := by
      rw [leads_mono hstarts h.startsWith] at hform
      cases hform
    cases s with
    | expression value =>
      cases h with
      | @expression _ _ mid h _ => exact ⟨value, mid, (Expr.finds_read n hts _ _).mpr h, rfl⟩
    | assign name value =>
      cases h with
      | assign hname hsign _ => simp [startsAssignment, hname, hsign] at hassign
    | _ =>
      exact (hother fun kind hkind => by rw [eq_of_beq hkind]; rfl).elim

/-- A statement finds what the grammar derives if the statements inside it do. -/
theorem finds_readForm (hgrows : statement.Grows)
    (hfinds : statement.Finds n fun s => Derives (.one s)) :
    (readForm n statement).Finds (n + 1) fun s => Derives (.one s) := by
  intro ts hts errors s rest
  cases ts with
  | nil => exact ofReader_eq_ok.trans (readExpression_eq_ok rfl rfl (Nat.zero_le n))
  | cons t ts =>
    rw [List.length_cons] at hts
    have hexpression (hassign : startsAssignment (t :: ts) = false)
        (hform : startsForm t.kind = false) :
        Parser.ofReader (readExpression n) ⟨t :: ts, errors⟩ = .ok s ⟨rest, errors⟩ ↔
          Derives (.one s) (t :: ts) rest :=
      ofReader_eq_ok.trans (readExpression_eq_ok hassign hform (by simp; omega))
    simp only [readForm, List.drop_succ_cons, List.drop_zero]
    split
    next hkind => exact readBranch_eq_clean hgrows hfinds hkind (by omega)
    next hkind => exact readLoop_eq_clean hgrows hfinds hkind (by omega)
    next hkind => exact readFor_eq_clean hgrows hfinds hkind (by omega)
    next hkind => exact readDefinition_eq_clean hgrows hfinds hkind (by omega)
    next hkind => exact ofReader_eq_ok.trans (readReturn_eq_ok hkind (by omega))
    next hkind => exact ofReader_eq_ok.trans (readPrint_eq_ok hkind (by omega))
    next hkind =>
      rw [map_eq_pure_bind, bind_eq_clean (grows_readBlock n hgrows) fun _ => Grows.pure _]
      have hblock (body : List Stmt) (mid : List Token) :=
        @finds_readBlock _ _ hgrows hfinds (t :: ts) (by simpa using hts) errors body mid
      constructor
      · rintro ⟨body, mid, hbody, h⟩
        cases h
        exact .nested hkind ((hblock body rest).mp hbody)
      · intro h
        have hstarts : s.startsWith t.kind = true := h.startsWith
        rw [hkind] at hstarts
        cases s with
        | block body =>
          cases h with
          | nested _ h => exact ⟨body, rest, (hblock body rest).mpr h, rfl⟩
        | _ => cases hstarts
    next hkind =>
      split
      next hsign =>
        cases ts with
        | nil => simp at hsign
        | cons sign ts =>
          rw [List.length_cons] at hts
          exact ofReader_eq_ok.trans (readAssign_eq_ok hkind (by simpa using hsign) (by omega))
      next hsign =>
        apply hexpression _ (by rw [hkind]; decide)
        cases ts with
        | nil => rfl
        | cons sign ts => simpa [startsAssignment, hkind] using hsign
    next hif hwhile hfor hdef hreturn hprint hindent hname =>
      apply hexpression
      · cases ts with
        | nil => rfl
        | cons sign ts =>
          simp only [startsAssignment, beq_eq_false_iff_ne.mpr hname, Bool.false_and]
      · simpa [startsForm] using ⟨hindent, hprint, hreturn, hif, hwhile, hfor, hdef⟩

/-- Reading finds exactly the statements that the grammar derives, if the limit is larger than the
number of tokens. -/
theorem finds_read (limit : Nat) : (read limit).Finds limit fun s => Derives (.one s) := by
  induction limit with
  | zero => exact fun ts hts => absurd hts (Nat.not_lt_zero _)
  | succ limit ih => exact finds_readForm (grows_read limit) ih

end Stmt

/-- The tokens of a stream up to its end of input. -/
def tokensBeforeEnd (tokens : List Token) : List Token := tokens.takeWhile (·.kind != .endOfInput)

/-- The token that ends a stream. -/
def endOf (tokens : List Token) : Token :=
  (tokens.find? (·.kind == .endOfInput)).getD (missingEnd tokens)

/-- A stream without an earlier end is split at its last token. -/
theorem tokensBeforeEnd_append {ts : List Token} (h : ∀ t ∈ ts, t.kind ≠ .endOfInput)
    {finish : Token} (hfinish : finish.kind = .endOfInput) :
    tokensBeforeEnd (ts ++ [finish]) = ts ∧ endOf (ts ++ [finish]) = finish := by
  have hinside : ∀ t ∈ ts, (t.kind != .endOfInput) = true := fun t ht => bne_iff_ne.mpr (h t ht)
  constructor
  · rw [tokensBeforeEnd, List.takeWhile_append_of_pos hinside]
    simp [hfinish]
  · have hnone : ts.find? (·.kind == .endOfInput) = none := by simpa using h
    simp [endOf, hnone, hfinish]

/-- The program is the sequence of statements in front of the end of input. -/
theorem parse_eq (tokens : List Token) :
    parse tokens =
      match Stmt.readSequence ((tokensBeforeEnd tokens).length + 1) (fun _ => false)
        (Stmt.read ((tokensBeforeEnd tokens).length + 1)) ⟨tokensBeforeEnd tokens, []⟩ with
      | .ok program s => ⟨program, s.errors.reverse, endOf tokens⟩
      | .error e s => ⟨[], (e :: s.errors).reverse, endOf tokens⟩ := rfl

/-- The parse ends at the end of input of its stream. -/
theorem parse_finish (tokens : List Token) : (parse tokens).finish = endOf tokens := by
  rw [parse_eq]
  split <;> rfl

/-- A token stream is parsed without errors into a program exactly if the grammar derives that
program from all the tokens up to the end of the input. -/
theorem parse_eq_clean {tokens : List Token} {program : List Stmt} :
    ((parse tokens).program = program ∧ (parse tokens).errors = []) ↔
      Stmt.Derives (.sequence program) (tokensBeforeEnd tokens) [] := by
  let limit := (tokensBeforeEnd tokens).length + 1
  have hsequence (program : List Stmt) (rest : List Token) :
      Stmt.readSequence limit (fun _ => false) (Stmt.read limit) ⟨tokensBeforeEnd tokens, []⟩ =
        .ok program ⟨rest, []⟩ ↔ _ :=
    Stmt.readSequence_eq_clean (by simp) (Stmt.grows_read _) (Stmt.finds_read limit)
      (Nat.lt_succ_self _)
  rw [parse_eq]
  cases hrun : Stmt.readSequence limit (fun _ => false) (Stmt.read limit)
    ⟨tokensBeforeEnd tokens, []⟩ with
  | ok found s =>
    obtain ⟨rest, errors⟩ := s
    constructor
    · rintro ⟨rfl, herrors⟩
      obtain rfl : errors = [] := by simpa using herrors
      obtain ⟨hfound, hend⟩ := (hsequence found rest).mp hrun
      cases rest with
      | nil => exact hfound
      | cons t rest => simp at hend
    · intro h
      cases hrun.symm.trans ((hsequence program []).mpr ⟨h, rfl⟩)
      exact ⟨rfl, rfl⟩
  | error e s =>
    constructor
    · rintro ⟨-, herrors⟩
      simp at herrors
    · intro h
      cases hrun.symm.trans ((hsequence program []).mpr ⟨h, rfl⟩)

end Offside
