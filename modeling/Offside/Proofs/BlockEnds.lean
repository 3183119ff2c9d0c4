import Offside.Proofs.Scanning
import Offside.Proofs.StmtAbreast
import Offside.Proofs.StreamShape

/-!
# Blocks that lose their end

In a scanned stream every level that is opened is closed. An error is skipped together with the
token in front of which it occurred, and that token may be the one that closes the block: then the
block, or one around it, is still open at the end of the input. An account of the open blocks, the
levels still to be opened and closed and the errors recorded so far shows that this is the only way
to lose the end of a block, and how often it happens.
-/

namespace Offside

open Stmt

/-- Whether an error is blamed on a token that closes a level. -/
def SyntaxError.blamesDedent (e : SyntaxError) : Bool := e.blamed.any (·.kind == .dedent)

/-- Whether an error says that a block is still open at the end of the input. -/
def SyntaxError.isLostEnd (e : SyntaxError) : Bool := e.fault == .expected .blockEnd

/-- Whether an error says that something cannot be assigned to. -/
def SyntaxError.isInvalidTarget (e : SyntaxError) : Bool := e.fault == .invalidTarget

/-- A level is opened directly behind the end of a line only, or at the front if `atFront`. -/
def OpensBehindLines : Bool → List Token → Prop
  | _, [] => True
  | atFront, t :: ts =>
    (t.kind = .indent → atFront = true) ∧ OpensBehindLines (t.kind == .newline) ts

/-- A level that opens only behind lines may also be read at the front. -/
theorem OpensBehindLines.front {atFront : Bool} {ts : List Token}
    (h : OpensBehindLines atFront ts) : OpensBehindLines true ts := by
  cases ts with
  | nil => trivial
  | cons t ts => exact ⟨fun _ => rfl, h.2⟩

/-- Line ends at the front may be dropped, since the front counts as the place behind a line. -/
theorem OpensBehindLines.dropNewlines {ts : List Token} (h : OpensBehindLines true ts) :
    OpensBehindLines true (dropNewlines ts) := by
  induction ts with
  | nil => trivial
  | cons t ts ih =>
    by_cases ht : t.kind = .newline
    · rw [dropNewlines_newline ht]
      exact ih h.2.front
    · rw [dropNewlines_of_not_leads (by simpa using ht)]
      exact h

/-- Dropping line ends loses no token of another kind. -/
theorem countKind_dropNewlines {kind : Kind} (hkind : kind ≠ .newline) (ts : List Token) :
    countKind kind (dropNewlines ts) = countKind kind ts := by
  induction ts with
  | nil => rfl
  | cons t ts ih =>
    by_cases ht : t.kind = .newline
    · rw [dropNewlines_newline ht, ih, countKind_cons, ht, if_neg (Ne.symm hkind), Nat.add_zero]
    · rw [dropNewlines_of_not_leads (by simpa using ht)]

/-! ## Recovery -/

/-- What is skipped behind the first token opens and closes no level. -/
theorem resumeAfter_keeps_levels {skipped : Token} {ts : List Token}
    (h : OpensBehindLines (skipped.kind == .newline) ts) :
    OpensBehindLines true (resumeAfter skipped ts) ∧
      countKind .indent (resumeAfter skipped ts) = countKind .indent ts ∧
      countKind .dedent (resumeAfter skipped ts) = countKind .dedent ts := by
  induction ts generalizing skipped with
  | nil => exact ⟨trivial, rfl, rfl⟩
  | cons t ts ih =>
    rw [resumeAfter]
    split
    · exact ⟨h.front, rfl, rfl⟩
    next hstop =>
      obtain ⟨hline, hresumes⟩ := not_or.mp hstop
      have hindent : t.kind ≠ .indent := by
        intro ht
        exact hline (by simpa using h.1 ht)
      have hdedent : t.kind ≠ .dedent := by
        intro ht
        exact hresumes (by rw [ht]; rfl)
      obtain ⟨hopens, hindents, hdedents⟩ := ih h.2
      refine ⟨hopens, ?_, ?_⟩
      · rw [hindents, countKind_cons, if_neg hindent, Nat.add_zero]
      · rw [hdedents, countKind_cons, if_neg hdedent, Nat.add_zero]

/-- Recovery inside a line swallows a dedent exactly if it stands in front. -/
theorem resume_swallows {ts : List Token} (h : OpensBehindLines false ts) :
    OpensBehindLines true (resume ts) ∧ countKind .indent (resume ts) = countKind .indent ts ∧
      countKind .dedent (resume ts) + (if leads (· == .dedent) ts then 1 else 0) =
        countKind .dedent ts := by
  cases ts with
  | nil => exact ⟨trivial, rfl, rfl⟩
  | cons t ts =>
    have hindent : t.kind ≠ .indent := by
      intro ht
      exact absurd (h.1 ht) (by simp)
    obtain ⟨hopens, hindents, hdedents⟩ := resumeAfter_keeps_levels h.2
    refine ⟨hopens, ?_, ?_⟩
    · rw [resume, hindents, countKind_cons, if_neg hindent, Nat.add_zero]
    · rw [resume, hdedents, countKind_cons, leads_cons]
      simp only [beq_iff_eq]

/-! ## The account -/

/-- The account of a run that has `d` blocks open: a dedent that is missing was swallowed by the
recovery from an error that is blamed on it, or from an invalid target. -/
structure Accounted (d : Nat) (s : Parsing) : Prop where
  swallowed : countKind .dedent s.rest + s.errors.countP SyntaxError.blamesDedent ≤
    d + s.errors.countP SyntaxError.isLostEnd + countKind .indent s.rest
  lost : d + s.errors.countP SyntaxError.isLostEnd + countKind .indent s.rest ≤
    countKind .dedent s.rest + s.errors.countP SyntaxError.blamesDedent +
      s.errors.countP SyntaxError.isInvalidTarget

/-- An account stays right if the open levels change as the levels in the rest do. -/
theorem Accounted.of_counts {d d' : Nat} {ts us : List Token} {es : List SyntaxError}
    (h : Accounted d ⟨ts, es⟩)
    (hcounts : d' + countKind .indent us + countKind .dedent ts =
      d + countKind .indent ts + countKind .dedent us) : Accounted d' ⟨us, es⟩ := by
  have hswallowed := h.swallowed
  have hlost := h.lost
  simp only at hswallowed hlost
  constructor
  · simp only
    omega
  · simp only
    omega

/-- A token that neither opens nor ends a level is read without an entry. -/
theorem Accounted.take {d : Nat} {t : Token} {ts : List Token} {es : List SyntaxError}
    (h : Accounted d ⟨t :: ts, es⟩) (hindent : t.kind ≠ .indent) (hdedent : t.kind ≠ .dedent) :
    Accounted d ⟨ts, es⟩ := by
  apply h.of_counts
  rw [countKind_cons, countKind_cons, if_neg hindent, if_neg hdedent]
  rfl

/-- An error inside a line that is recorded and skipped. -/
theorem Accounted.record {d : Nat} {s : Parsing} {e : SyntaxError} (h : Accounted d s)
    (hopens : OpensBehindLines false s.rest) (hstops : e.StopsAt s.rest) :
    Accounted d ⟨resume s.rest, e :: s.errors⟩ := by
  obtain ⟨-, hindents, hdedents⟩ := resume_swallows hopens
  have hswallowed := h.swallowed
  have hlost := h.lost
  obtain ⟨fault, blamed⟩ := e
  cases fault with
  | expected what =>
    obtain ⟨hwhat, hblamed⟩ := hstops
    have hblames : SyntaxError.blamesDedent ⟨.expected what, blamed⟩ =
        leads (· == .dedent) s.rest := by
      rw [SyntaxError.blamesDedent, leads, hblamed]
    have hends : SyntaxError.isLostEnd ⟨.expected what, blamed⟩ = false := by
      simpa [SyntaxError.isLostEnd] using hwhat
    have htarget : SyntaxError.isInvalidTarget ⟨.expected what, blamed⟩ = false := rfl
    constructor
    · simp only [List.countP_cons, hblames, hends]
      omega
    · simp only [List.countP_cons, hblames, hends, htarget]
      omega
  | invalidTarget =>
    obtain ⟨sign, hblamed, hsign⟩ := hstops
    have hblames : SyntaxError.blamesDedent ⟨.invalidTarget, blamed⟩ = false := by
      simp only at hblamed
      simp [SyntaxError.blamesDedent, hblamed, hsign]
    have hends : SyntaxError.isLostEnd ⟨.invalidTarget, blamed⟩ = false := rfl
    have htarget : SyntaxError.isInvalidTarget ⟨.invalidTarget, blamed⟩ = true := rfl
    constructor
    · simp only [List.countP_cons, hblames, hends, Bool.false_eq_true, if_false]
      omega
    · simp only [List.countP_cons, hblames, hends, htarget, Bool.false_eq_true, if_false, if_true]
      split at hdedents
      · omega
      · omega

/-- A run with itself, with the account of its blocks. -/
def Pace.accounted : Pace id where
  inLine d s s' := s' = s ∧ OpensBehindLines false s.rest ∧ Accounted d s
  atStart d s s' := s' = s ∧ OpensBehindLines true s.rest ∧ Accounted d s
  atLine d s s' := s' = s ∧ OpensBehindLines true s.rest ∧ Accounted d s
  passing _ _ := True
  isMove := .id
  agree h := by rw [h.1, Option.map_id_fun, id]
  agreeStart h := by rw [h.1, Option.map_id_fun, id]
  take h ht := by
    obtain ⟨heq, hopens, haccount⟩ := h
    cases heq
    have hline : _ ≠ Kind.newline := Kind.ne_of_isStructural ht rfl
    have hindent : _ ≠ Kind.indent := Kind.ne_of_isStructural ht rfl
    have hdedent : _ ≠ Kind.dedent := Kind.ne_of_isStructural ht rfl
    refine ⟨rfl, ?_, haccount.take hindent hdedent⟩
    rw [← beq_eq_false_iff_ne.mpr hline]
    exact hopens.2
  line h ht := by
    obtain ⟨heq, hopens, haccount⟩ := h
    cases heq
    exact ⟨rfl, hopens.2.front, haccount.take (by simp [ht]) (by simp [ht])⟩
  skip h := by
    obtain ⟨heq, hopens, haccount⟩ := h
    cases heq
    refine ⟨rfl, hopens.dropNewlines, haccount.of_counts ?_⟩
    rw [countKind_dropNewlines (by simp), countKind_dropNewlines (by simp)]
  passes _ := trivial
  passesStart _ := trivial
  relax h := ⟨h.1, h.2.1.front, h.2.2⟩
  relaxStart h := h
  start := by
    rintro d ⟨ts, es⟩ s' ⟨rfl, hopens, haccount⟩ hindent
    refine ⟨rfl, ?_, haccount⟩
    cases ts with
    | nil => trivial
    | cons t ts => exact ⟨fun ht => by simp [ht] at hindent, hopens.2⟩
  opens h ht := by
    obtain ⟨heq, hopens, haccount⟩ := h
    cases heq
    refine ⟨rfl, hopens.2.front, haccount.of_counts ?_⟩
    rw [countKind_cons, countKind_cons, if_pos ht, if_neg (by simp [ht])]
    omega
  closes h ht := by
    obtain ⟨heq, hopens, haccount⟩ := h
    cases heq
    refine ⟨rfl, ?_, haccount.of_counts ?_⟩
    · have hafter := hopens.2
      rwa [ht] at hafter
    · rw [countKind_cons, countKind_cons, if_pos ht, if_neg (by simp [ht])]
      omega
  record h hstops := by
    obtain ⟨rfl, hopens, haccount⟩ := h
    rw [SyntaxError.move_id]
    exact ⟨rfl, (resume_swallows hopens).1, haccount.record hopens hstops⟩
  lost h := by
    obtain ⟨heq, hopens, haccount⟩ := h
    cases heq
    have hswallowed := haccount.swallowed
    have hlost := haccount.lost
    simp only at hswallowed hlost
    have hblames : SyntaxError.blamesDedent ⟨.expected .blockEnd, none⟩ = false := rfl
    have hends : SyntaxError.isLostEnd ⟨.expected .blockEnd, none⟩ = true := rfl
    have htarget : SyntaxError.isInvalidTarget ⟨.expected .blockEnd, none⟩ = false := rfl
    refine ⟨rfl, trivial, ?_, ?_⟩
    · simp only [List.countP_cons, hblames, hends, Bool.false_eq_true, if_false, if_true]
      omega
    · simp only [List.countP_cons, hblames, hends, htarget, Bool.false_eq_true, if_false, if_true]
      omega

/-! ## Scanned sources -/

/-- The scanner opens levels behind lines only. -/
theorem Laid.opensBehindLines {m : Margin} {depth n : Nat} {ts : List Token}
    (h : Laid m depth n ts) : OpensBehindLines (m == .lineStart) ts := by
  induction h with
  | finish _ ht => exact ⟨fun hindent => absurd (ht.symm.trans hindent) (by simp), trivial⟩
  | newline _ ht _ ih =>
    refine ⟨fun hindent => absurd (ht.symm.trans hindent) (by simp), ?_⟩
    rw [ht]
    exact ih
  | indent ht _ ih =>
    refine ⟨fun _ => rfl, ?_⟩
    rw [ht]
    exact ih
  | dedent _ ht _ ih =>
    refine ⟨fun hindent => absurd (ht.symm.trans hindent) (by simp), ?_⟩
    rw [ht]
    exact ih
  | ending _ ht _ ih =>
    refine ⟨fun hindent => absurd (ht.symm.trans hindent) (by simp), ?_⟩
    rw [ht]
    exact ih
  | text _ ht _ ih =>
    refine ⟨fun hindent => absurd hindent (Kind.ne_of_isStructural ht rfl), ?_⟩
    rw [beq_eq_false_iff_ne.mpr (Kind.ne_of_isStructural ht rfl)]
    exact ih

/-- What holds of all tokens holds of the first ones. -/
theorem OpensBehindLines.of_append {atFront : Bool} {ts us : List Token}
    (h : OpensBehindLines atFront (ts ++ us)) : OpensBehindLines atFront ts := by
  induction ts generalizing atFront with
  | nil => trivial
  | cons t ts ih => exact ⟨h.1, ih h.2⟩

/-- The syntax errors of a source, in the order in which they are found. -/
def syntaxErrors (source : String) : List SyntaxError := (parse (scan source).tokens).errors

/-- Every block of a source that loses its end to the recovery from an error is reported as open at
the end of the input, and no other: as many blocks as there are errors that are blamed on the token
that closes a level, and for each invalid target at most one more. -/
theorem lostEnds_counted (source : String) :
    (syntaxErrors source).countP SyntaxError.blamesDedent ≤
        (syntaxErrors source).countP SyntaxError.isLostEnd ∧
      (syntaxErrors source).countP SyntaxError.isLostEnd ≤
        (syntaxErrors source).countP SyntaxError.blamesDedent +
          (syntaxErrors source).countP SyntaxError.isInvalidTarget := by
  have hlaid := laid_scan source
  have hshape := hlaid.wellShaped
  obtain ⟨body, finish, htokens, hfinish, hbody⟩ := hshape.ends
  have hbefore : tokensBeforeEnd (scan source).tokens = body := by
    rw [htokens]
    exact (tokensBeforeEnd_append hbody hfinish).1
  have hopens : OpensBehindLines true body := by
    have hopens := hlaid.opensBehindLines
    rw [htokens] at hopens
    exact hopens.of_append
  have hbalanced : countKind .dedent body = countKind .indent body := by
    have hbalanced := hshape.balanced
    rw [htokens] at hbalanced
    simpa [countKind, hfinish] using hbalanced
  have hstart : Pace.accounted.atLine 0 ⟨body, []⟩ ⟨body, []⟩ := by
    refine ⟨rfl, hopens, ?_, ?_⟩
    · simp [hbalanced]
    · simp [hbalanced]
  obtain ⟨program, es, es', hrun, -, -, -, haccount⟩ := readProgram_abreast
    (Parser.ofReader (Reader.fail .expression)) (Parser.ofReader (Reader.fail .expression))
    (Nat.lt_succ_self _) (Nat.lt_succ_self _) hstart
  rw [Stmt.readOver_fail] at hrun
  have herrors : syntaxErrors source = es.reverse := by
    rw [syntaxErrors, parse_eq, hbefore, hrun]
  have hswallowed := haccount.swallowed
  have hlost := haccount.lost
  simp only [countKind_nil] at hswallowed hlost
  rw [herrors]
  simp only [List.countP_reverse]
  constructor
  · omega
  · omega

/-- A dedent that follows an open parenthesis is blamed and swallowed, and the block around it loses
its end. -/
theorem lostEnd_reported :
    syntaxErrors "if a:\n    b = (" =
        [⟨.expected .expression, some ⟨.dedent, "<dedent>", 2, ⟨15, 15⟩⟩⟩,
          ⟨.expected .blockEnd, none⟩] ∧
      (SyntaxFault.expected .blockEnd).message = "Expect indentation to end block." := by
  rw [syntaxErrors, scan_eq_scanUpTo (n := 20) (by decide +kernel)]
  decide +kernel

end Offside
