import Offside.Proofs.Recovery

/-!
# Reading blocks and clauses

A sequence of statements, a block and the clauses of a branch that are read without an error are
those that the grammar derives, if that is so for the statements in them.
-/

namespace Offside

namespace Stmt

open Offside.Parser Reader

variable {n : Nat} {statement : Parser Stmt} {ts rest : List Token} {errors : List SyntaxError}

/-- A round that reports nothing has read its statement, and nothing was skipped. -/
theorem recover_eq_clean (hgrows : statement.Grows) {found : Option Stmt} :
    recover statement ⟨ts, errors⟩ = .ok found ⟨rest, errors⟩ ↔
      ∃ s, found = some s ∧ statement ⟨ts, errors⟩ = .ok s ⟨rest, errors⟩ := by
  unfold recover
  cases hrun : statement ⟨ts, errors⟩ with
  | ok s s' =>
    simp only [EStateM.Result.ok.injEq]
    constructor
    · rintro ⟨rfl, rfl⟩
      exact ⟨s, rfl, rfl, rfl⟩
    · rintro ⟨s, rfl, rfl, rfl⟩
      exact ⟨rfl, rfl⟩
  | error e s' =>
    have hlength := (hgrows.of_error hrun).length_le
    simp only [EStateM.Result.ok.injEq, reduceCtorEq, and_false, exists_false, iff_false]
    rintro ⟨-, h⟩
    have herrors := congrArg (fun s => s.errors.length) h
    simp only [List.length_cons] at herrors hlength
    omega

/-- Ends of lines in front of a sequence do not matter. -/
theorem derives_sequence_dropNewlines {body : List Stmt} :
    Derives (.sequence body) (dropNewlines ts) rest ↔ Derives (.sequence body) ts rest := by
  induction ts with
  | nil => rfl
  | cons t ts ih =>
    unfold dropNewlines at ih ⊢
    by_cases hkind : t.kind = .newline
    · simp only [List.dropWhile_cons, hkind, beq_self_eq_true, if_true, ih]
      constructor
      · exact .emptyLine hkind
      · intro h
        cases h with
        | emptyLine _ h => exact h
        | finish h => simp [hkind] at h
        | next h _ =>
          have hstarts : startsStmt t.kind = true := h.starts
          rw [hkind] at hstarts
          exact absurd hstarts (by decide)
    · simp [hkind]

/-- No line end is left in front. -/
theorem leads_dropNewlines (ts : List Token) :
    leads (· == .newline) (dropNewlines ts) = false := by
  have h := List.head?_dropWhile_not (·.kind == .newline) ts
  unfold dropNewlines leads
  cases hhead : (ts.dropWhile (·.kind == .newline)).head? with
  | none => rfl
  | some t =>
    rw [hhead] at h
    simpa using h

/-- There is no further statement exactly if line ends lead up to the place where a block stops. -/
theorem readNext_eq_none {stop : Kind → Bool} :
    readNext stop statement ⟨ts, errors⟩ = .ok none ⟨rest, errors⟩ ↔
      rest = dropNewlines ts ∧ leads (!stop ·) rest = false := by
  rw [readNext_apply]
  cases dropNewlines ts with
  | nil =>
    simp only [EStateM.Result.ok.injEq, Parsing.mk.injEq, true_and, and_true]
    constructor
    · rintro rfl
      exact ⟨rfl, rfl⟩
    · exact fun h => h.1.symm
  | cons t us =>
    by_cases hstop : stop t.kind = true
    · simp only [hstop, if_true, EStateM.Result.ok.injEq, Parsing.mk.injEq, true_and, and_true]
      constructor
      · rintro rfl
        exact ⟨rfl, by simp [hstop]⟩
      · exact fun h => h.1.symm
    · simp only [if_neg hstop, bind_eq_ok, pure_eq_ok, reduceCtorEq, false_and, and_false,
        exists_false, false_iff, not_and, Bool.not_eq_false]
      rintro rfl
      simpa using hstop

/-- There is a further statement exactly if it is read behind the line ends. -/
theorem readNext_eq_some {stop : Kind → Bool} (hgrows : statement.Grows) {found : Option Stmt} :
    readNext stop statement ⟨ts, errors⟩ = .ok (some found) ⟨rest, errors⟩ ↔
      leads (!stop ·) (dropNewlines ts) = true ∧
        ∃ s, found = some s ∧
          statement ⟨dropNewlines ts, errors⟩ = .ok s ⟨rest, errors⟩ := by
  rw [readNext_apply, ← recover_eq_clean hgrows]
  cases dropNewlines ts with
  | nil => simp
  | cons t us =>
    by_cases hstop : stop t.kind = true
    · simp [hstop]
    · simp only [leads_cons, hstop, Bool.not_false, true_and, Bool.false_eq_true, if_false]
      rw [bind_eq_clean (grows_recover hgrows) fun _ => Grows.pure _]
      constructor
      · rintro ⟨found', mid, hrun, h⟩
        cases h
        exact hrun
      · exact fun hrun => ⟨found, rest, hrun, rfl⟩

/-- The statements up to the end of a block or of the input; `stop` says whether the dedent that
ends a block is a place to stop. -/
theorem collect_readNext_eq_clean {stop : Kind → Bool} (hstop : ∀ kind, stop kind → kind = .dedent)
    (hgrows : statement.Grows) (hfinds : statement.Finds n fun s => Derives (.one s)) {limit : Nat}
    (hlimit : ts.length ≤ limit) (hts : ts.length < n) {found : List (Option Stmt)} :
    collect (readNext stop statement) [] limit ⟨ts, errors⟩ = .ok found ⟨rest, errors⟩ ↔
      ∃ body : List Stmt, found = body.map some ∧ Derives (.sequence body) ts rest ∧
        leads (!stop ·) rest = false := by
  induction limit generalizing ts found with
  | zero =>
    rw [List.length_eq_zero_iff.mp (Nat.le_zero.mp hlimit), collect, pure_eq_ok]
    constructor
    · rintro ⟨rfl, h⟩
      cases h
      exact ⟨[], rfl, .finish rfl, rfl⟩
    · rintro ⟨body, rfl, h, -⟩
      cases h with
      | finish _ => exact ⟨rfl, rfl⟩
      | next h _ => exact absurd h.starts (by simp)
  | succ limit ih =>
    have hlength := length_dropNewlines_le ts
    rw [collect]
    refine Iff.trans (bind_eq_clean (grows_readNext stop hgrows) fun next => ?_) ?_
    · cases next with
      | none => exact Grows.pure _
      | some a => exact grows_collect (grows_readNext stop hgrows) [a] limit
    -- Empty lines in front are skipped by the parser and derived by the grammar one by one.
    simp only [← @derives_sequence_dropNewlines ts]
    constructor
    · rintro ⟨_ | found', mid, hnext, hrest⟩
      · obtain ⟨rfl, hend⟩ := readNext_eq_none.mp hnext
        cases hrest
        refine ⟨[], rfl, .finish (leads_eq_false_mono (fun kind hkind => ?_) hend), hend⟩
        simp only [bne_iff_ne] at hkind
        simpa using fun h => hkind (hstop kind h)
      · obtain ⟨-, s, rfl, hs⟩ := (readNext_eq_some hgrows).mp hnext
        obtain ⟨more, hmore, rfl⟩ := collect_singleton_eq_ok.mp hrest
        have hs' := (hfinds (by omega) errors s mid).mp hs
        have hmid : mid.length + 1 ≤ (dropNewlines ts).length := hs'.length_le
        obtain ⟨body, rfl, hbody, hend⟩ := (ih (by omega) (by omega)).mp hmore
        exact ⟨s :: body, rfl, .next hs' hbody, hend⟩
    · rintro ⟨body, rfl, h, hend⟩
      have hhead := leads_dropNewlines ts
      generalize hus : dropNewlines ts = us at h hhead hlength
      cases h with
      | finish h => exact ⟨none, rest, readNext_eq_none.mpr ⟨hus.symm, hend⟩, rfl⟩
      | emptyLine h _ => simp [h] at hhead
      | @next s body _ mid _ hs hbody =>
        have hmid : mid.length + 1 ≤ us.length := hs.length_le
        have hs' := (hfinds (by omega) errors s mid).mpr hs
        have hmore := (ih (by omega) (by omega)).mpr ⟨body, rfl, hbody, hend⟩
        refine ⟨some (some s), mid, (readNext_eq_some hgrows).mpr ⟨?_, s, rfl, hus ▸ hs'⟩, ?_⟩
        · rw [hus]
          refine leads_mono (fun kind hkind => ?_) hs.starts
          rw [Bool.not_eq_true']
          cases h : stop kind with
          | false => rfl
          | true =>
            rw [hstop kind h] at hkind
            exact absurd hkind (by decide)
        · exact collect_singleton_eq_ok.mpr ⟨body.map some, hmore, rfl⟩

/-- Without reports a sequence is read exactly if it is derived, and it goes on as long as it can.
-/
theorem readSequence_eq_clean {stop : Kind → Bool} (hstop : ∀ kind, stop kind → kind = .dedent)
    (hgrows : statement.Grows) (hfinds : statement.Finds n fun s => Derives (.one s))
    (hts : ts.length < n) {body : List Stmt} :
    readSequence n stop statement ⟨ts, errors⟩ = .ok body ⟨rest, errors⟩ ↔
      Derives (.sequence body) ts rest ∧ leads (!stop ·) rest = false := by
  rw [readSequence, bind_eq_clean (grows_collect (grows_readNext stop hgrows) [] n)
    fun _ => Grows.pure _]
  have hcollect (found : List (Option Stmt)) (mid : List Token) :
      collect (readNext stop statement) [] n ⟨ts, errors⟩ = .ok found ⟨mid, errors⟩ ↔ _ :=
    collect_readNext_eq_clean hstop hgrows hfinds (Nat.le_of_lt hts) hts
  constructor
  · rintro ⟨found, mid, hfound, h⟩
    obtain ⟨body', rfl, hbody, hend⟩ := (hcollect found mid).mp hfound
    cases h
    simpa using ⟨hbody, hend⟩
  · rintro ⟨hbody, hend⟩
    exact ⟨body.map some, rest, (hcollect _ rest).mpr ⟨body, rfl, hbody, hend⟩, by
      simp [pure_eq_ok]⟩

/-- A block starts at the first token that ends no line. -/
theorem derives_block_iff {body : List Stmt} :
    Derives (.block body) ts rest ↔
      ∃ opening mid closing, dropNewlines ts = opening :: mid ∧ opening.kind = .indent ∧
        Derives (.sequence body) mid (closing :: rest) ∧ closing.kind = .dedent := by
  induction ts with
  | nil =>
    constructor
    · nofun
    · rintro ⟨_, _, _, h, -⟩
      cases h
  | cons t ts ih =>
    unfold dropNewlines at ih ⊢
    by_cases hkind : t.kind = .newline
    · simp only [List.dropWhile_cons, hkind, beq_self_eq_true, if_true, ← ih]
      constructor
      · intro h
        cases h with
        | skip _ h => exact h
        | block hopening _ _ => cases hkind.symm.trans hopening
      · exact .skip hkind
    · simp only [List.dropWhile_cons, beq_eq_false_iff_ne.mpr hkind, Bool.false_eq_true, if_false]
      constructor
      · intro h
        cases h with
        | skip h _ => exact absurd h hkind
        | block hopening h hclosing => exact ⟨t, ts, _, rfl, hopening, h, hclosing⟩
      · rintro ⟨opening, mid, closing, h, hopening, hbody, hclosing⟩
        cases h
        exact .block hopening hbody hclosing

/-- Reading a block finds the blocks of the grammar. -/
theorem finds_readBlock (hgrows : statement.Grows)
    (hfinds : statement.Finds n fun s => Derives (.one s)) :
    (readBlock n statement).Finds (n + 1) fun body => Derives (.block body) := by
  intro ts hts errors body rest
  have hlength := length_dropNewlines_le ts
  refine Iff.trans reader_bind_eq_clean (Iff.trans ?_ derives_block_iff.symm)
  have hsequence {ts rest : List Token} (hts : ts.length < n) (body : List Stmt) :
      readSequence n (· == .dedent) statement ⟨ts, errors⟩ = .ok body ⟨rest, errors⟩ ↔ _ :=
    readSequence_eq_clean (by simp) hgrows hfinds hts
  constructor
  · rintro ⟨_, mid, hskip, h⟩
    obtain rfl := skipNewlines_eq_ok.mp hskip
    obtain ⟨opening, mid, hopening, h⟩ := reader_bind_eq_clean.mp h
    obtain ⟨hmid, hkind⟩ := expect_eq_ok.mp hopening
    rw [hmid, List.length_cons] at hlength
    obtain ⟨body, mid', hbody, h⟩ := (bind_eq_clean (grows_readSequence _ n hgrows) fun _ =>
      (Grows.ofReader _).bind fun _ => Grows.pure _).mp h
    obtain ⟨closing, mid'', hclosing, hend⟩ := reader_bind_eq_clean.mp h
    obtain ⟨rfl, hkind'⟩ := expect_eq_ok.mp hclosing
    cases hend
    exact ⟨opening, mid, closing, hmid, hkind, ((hsequence (by omega) body).mp hbody).1, hkind'⟩
  · rintro ⟨opening, mid, closing, hmid, hkind, hbody, hkind'⟩
    rw [hmid, List.length_cons] at hlength
    refine ⟨(), _, skipNewlines_eq_ok.mpr rfl, ?_⟩
    refine reader_bind_eq_clean.mpr ⟨opening, mid, expect_eq_ok.mpr ⟨hmid, hkind⟩, ?_⟩
    refine (bind_eq_clean (grows_readSequence _ n hgrows) fun _ =>
      (Grows.ofReader _).bind fun _ => Grows.pure _).mpr ⟨body, closing :: rest, ?_, ?_⟩
    · exact (hsequence (by omega) body).mpr ⟨hbody, by simp [hkind']⟩
    · exact reader_bind_eq_clean.mpr ⟨closing, rest, expect_eq_ok.mpr ⟨rfl, hkind'⟩, rfl⟩

/-- Reading the body behind a header finds the bodies of the grammar, whether on the same line or
indented. -/
theorem finds_readBody (hgrows : statement.Grows)
    (hfinds : statement.Finds n fun s => Derives (.one s)) (header : Header) :
    (readBody n statement header).Finds (n + 1) fun body => Derives (.body body) := by
  intro ts hts errors body rest
  refine Iff.trans reader_bind_eq_clean ?_
  constructor
  · rintro ⟨colon, mid, hcolon, h⟩
    obtain ⟨rfl, hcolon'⟩ := expect_eq_ok.mp hcolon
    obtain ⟨newline, mid', hnewline, hblock⟩ := reader_bind_eq_clean.mp h
    obtain ⟨rfl, hnewline'⟩ := expect_eq_ok.mp hnewline
    simp only [List.length_cons] at hts
    exact .body hcolon' hnewline' ((finds_readBlock hgrows hfinds (by omega) errors _ _).mp hblock)
  · intro h
    cases h with
    | @body colon newline _ ts _ hcolon hnewline h =>
      simp only [List.length_cons] at hts
      refine ⟨colon, newline :: ts, expect_eq_ok.mpr ⟨rfl, hcolon⟩, ?_⟩
      refine reader_bind_eq_clean.mpr ⟨newline, ts, expect_eq_ok.mpr ⟨rfl, hnewline⟩, ?_⟩
      exact (finds_readBlock hgrows hfinds (by omega) errors _ _).mpr h

/-- The clauses of a branch one by one, as long as there are at most `count` of them. -/
theorem readAlternative_eq_clean (hgrows : statement.Grows)
    (hfinds : statement.Finds n fun s => Derives (.one s)) {count : Nat}
    (hcount : ts.length ≤ count) (hts : ts.length ≤ n) {otherwise : Alternative} :
    readAlternative n statement count ⟨ts, errors⟩ = .ok otherwise ⟨rest, errors⟩ ↔
      Derives (.alternative otherwise) ts rest := by
  induction count generalizing ts otherwise with
  | zero =>
    rw [List.length_eq_zero_iff.mp (Nat.le_zero.mp hcount), readAlternative, pure_eq_ok]
    constructor
    · rintro ⟨rfl, h⟩
      cases h
      exact .nothing rfl rfl
    · intro h
      cases h with
      | nothing _ _ => exact ⟨rfl, rfl⟩
  | succ count ih =>
    rw [readAlternative]
    refine Iff.trans reader_bind_eq_clean ?_
    constructor
    · rintro ⟨_ | keyword, mid, helif, h⟩
      · obtain ⟨rfl, hnot⟩ := accept_eq_none.mp helif
        obtain ⟨_ | keyword, mid, helse, hrest⟩ := reader_bind_eq_clean.mp h
        · obtain ⟨rfl, hnot'⟩ := accept_eq_none.mp helse
          cases hrest
          exact .nothing hnot hnot'
        · obtain ⟨rfl, hkind⟩ := accept_eq_some.mp helse
          rw [List.length_cons] at hts
          obtain ⟨body, mid', hbody, hend⟩ :=
            (bind_eq_clean (grows_readBody n hgrows _) fun _ => Grows.pure _).mp hrest
          cases hend
          exact .last hkind ((finds_readBody hgrows hfinds _ (by omega) errors _ _).mp hbody)
      · obtain ⟨rfl, hkind⟩ := accept_eq_some.mp helif
        rw [List.length_cons] at hts hcount
        obtain ⟨condition, mid', hcondition, hrest⟩ := reader_bind_eq_clean.mp h
        have hcondition' := (Expr.finds_read n (by omega) _ _).mp hcondition
        have hmid := hcondition'.length_le
        obtain ⟨body, mid'', hbody, hrest'⟩ :=
          (bind_eq_clean (grows_readBody n hgrows _) fun _ =>
            (grows_readAlternative n hgrows count).bind fun _ => Grows.pure _).mp hrest
        have hbody' := (finds_readBody hgrows hfinds _ (by omega) errors _ _).mp hbody
        have hmid' := hbody'.length_le
        obtain ⟨more, last, hmore, hend⟩ :=
          (bind_eq_clean (grows_readAlternative n hgrows count) fun _ => Grows.pure _).mp hrest'
        cases hend
        exact .another hkind hcondition' hbody' ((ih (by omega) (by omega)).mp hmore)
    · intro h
      cases h with
      | nothing hnot hnot' =>
        refine ⟨none, _, accept_eq_none.mpr ⟨rfl, hnot⟩, ?_⟩
        exact reader_bind_eq_clean.mpr ⟨none, _, accept_eq_none.mpr ⟨rfl, hnot'⟩, rfl⟩
      | @last keyword body ts _ hkind hbody =>
        rw [List.length_cons] at hts
        refine ⟨none, _, accept_eq_none.mpr ⟨rfl, by simp [hkind]⟩, ?_⟩
        refine reader_bind_eq_clean.mpr ⟨some keyword, ts, accept_eq_some.mpr ⟨rfl, hkind⟩, ?_⟩
        refine (bind_eq_clean (grows_readBody n hgrows _) fun _ => Grows.pure _).mpr
          ⟨body, rest, ?_, rfl⟩
        exact (finds_readBody hgrows hfinds _ (by omega) errors _ _).mpr hbody
      | @another keyword condition body more ts mid mid' _ hkind hcondition hbody hmore =>
        rw [List.length_cons] at hts hcount
        have hmid := hcondition.length_le
        have hmid' := hbody.length_le
        refine ⟨some keyword, ts, accept_eq_some.mpr ⟨rfl, hkind⟩, ?_⟩
        refine reader_bind_eq_clean.mpr
          ⟨condition, mid, (Expr.finds_read n (by omega) _ _).mpr hcondition, ?_⟩
        refine (bind_eq_clean (grows_readBody n hgrows _) fun _ =>
          (grows_readAlternative n hgrows count).bind fun _ => Grows.pure _).mpr
          ⟨body, mid', (finds_readBody hgrows hfinds _ (by omega) errors _ _).mpr hbody, ?_⟩
        exact (bind_eq_clean (grows_readAlternative n hgrows count) fun _ => Grows.pure _).mpr
          ⟨more, rest, (ih (by omega) (by omega)).mpr hmore, rfl⟩

end Stmt

end Offside
