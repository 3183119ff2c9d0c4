import Mathlib.Data.List.Forall2
import Offside.Proofs.ErrorOrder
import Offside.Proofs.Insertion
import Offside.Proofs.Splitting
import Offside.Proofs.StreamShape

/-!
# Outcomes of runs

A run succeeds without a diagnostic, or is rejected with lexical and syntax errors only, or fails
with exactly one runtime error. What is reported about a rejected source is in the order of the
source: every piece of it gives rise to at most one lexical error, and the parser never goes back.
-/

namespace Offside

/-! ## Lexical errors -/

namespace Layout

/-- Dedents carry no error. -/
theorem errors_dedents (s : Layout) (count : Nat) :
    (List.replicate count (Lexeme.token s.dedentAt)).filterMap Lexeme.error? = [] :=
  List.filterMap_replicate_of_none rfl

/-- The indentation of a line reports at most once. -/
theorem errors_indentation (s : Layout) : (s.indentation.filterMap Lexeme.error?).length ≤ 1 := by
  by_cases hdeeper : innermost s.levels < s.width
  · rw [indentation_of_lt hdeeper]
    exact Nat.zero_le 1
  · by_cases hfits : innermost (closeTo s.width s.levels) = s.width
    · rw [indentation_of_eq hdeeper hfits, errors_dedents]
      exact Nat.zero_le 1
    · rw [indentation_of_ne hdeeper hfits, List.filterMap_append, errors_dedents]
      exact Nat.le_refl 1

/-- A piece gives rise to at most one error. -/
theorem errors_emit (s : Layout) (p : Piece) :
    ((s.emit p).filterMap Lexeme.error?).length ≤ 1 := by
  obtain ⟨role, text⟩ := p
  cases role with
  | blank => exact Nat.zero_le 1
  | comment => exact Nat.zero_le 1
  | stray => exact Nat.le_refl 1
  | unterminated => exact Nat.le_refl 1
  | malformed => exact Nat.le_refl 1
  | token kind =>
    by_cases hkind : kind = .newline
    · subst hkind
      rw [emit]
      simp only
      split <;> exact Nat.zero_le 1
    · rw [emit_token hkind, List.filterMap_append, List.length_append]
      split
      · exact s.errors_indentation
      · exact Nat.zero_le 1

/-- The errors of a scan start one behind the other. -/
theorem errors_output_pairwise {ps : List Piece} (hps : ∀ p ∈ ps, p.text ≠ []) (s : Layout) :
    ((s.output ps).filterMap Lexeme.error?).Pairwise fun e e' => e.span.start < e'.span.start := by
  induction ps generalizing s with
  | nil =>
    rw [output_nil, finish, List.filterMap_append, errors_dedents]
    exact .nil
  | cons p ps ih =>
    rw [List.forall_mem_cons] at hps
    rw [output_cons, List.filterMap_append, List.pairwise_append]
    -- What a piece contributes starts with it, and what follows starts behind its text.
    refine ⟨?_, ih hps.2 _, fun e he e' he' => ?_⟩
    · have hone := s.errors_emit p
      generalize (s.emit p).filterMap Lexeme.error? = errors at hone
      rcases errors with _ | ⟨e, _ | ⟨e', rest⟩⟩
      · exact .nil
      · exact List.pairwise_singleton _ _
      · simp at hone
    · obtain ⟨x, hx, hxe⟩ := List.mem_filterMap.mp he
      obtain ⟨x', hx', hxe'⟩ := List.mem_filterMap.mp he'
      have hstart := start_emit s p x hx
      have hstart' := offset_le_of_mem_output hx'
      have hpositive := Text.byteLength_pos hps.1
      rw [offset_next] at hstart'
      cases x with
      | token t => cases hxe
      | error f =>
        cases x' with
        | token t => cases hxe'
        | error f' =>
          cases hxe
          cases hxe'
          change e.span.start = s.offset at hstart
          change _ ≤ e'.span.start at hstart'
          omega

end Layout

/-- The lexical errors of a source start one behind the other. -/
theorem errors_scan_pairwise (source : String) :
    (scan source).errors.Pairwise fun e e' => e.span.start < e'.span.start := by
  have hoc : (scan source).errors =
      (Layout.output {} (pieces source.toList)).filterMap Lexeme.error? := by
    rw [scan, lexemes_eq]
    rfl
  rw [hoc]
  exact Layout.errors_output_pairwise (fun p hp => text_ne_nil hp) {}

/-! ## Syntax errors -/

/-- The positions at which the elements of a sublist stand. -/
theorem exists_positions {α : Type} {l l' : List α} (h : l.Sublist l') :
    ∃ positions : List Nat, List.Forall₂ (fun a i => l'[i]? = some a) l positions ∧
      positions.Pairwise (· < ·) ∧ ∀ i ∈ positions, i < l'.length := by
  induction h with
  | slnil => exact ⟨[], .nil, .nil, by simp⟩
  | cons b _ ih =>
    obtain ⟨positions, hpositions, hlt, hbound⟩ := ih
    refine ⟨positions.map (· + 1), List.forall₂_map_right_iff.mpr hpositions,
      hlt.map _ fun _ _ h => Nat.succ_lt_succ h, ?_⟩
    simpa using hbound
  | cons_cons b _ ih =>
    obtain ⟨positions, hpositions, hlt, hbound⟩ := ih
    refine ⟨0 :: positions.map (· + 1), .cons rfl (List.forall₂_map_right_iff.mpr hpositions),
      List.pairwise_cons.mpr ⟨by simp, hlt.map _ fun _ _ h => Nat.succ_lt_succ h⟩, ?_⟩
    simpa using hbound

/-- One element many times corresponds to another as many times. -/
theorem forall₂_replicate {α β : Type} {R : α → β → Prop} {a : α} {b : β} (h : R a b) (n : Nat) :
    List.Forall₂ R (List.replicate n a) (List.replicate n b) := by
  induction n with
  | zero => exact .nil
  | succ n ih => exact .cons h ih

/-- Diagnostics of the parser that blame tokens of a stream at positions which increase, except that
several of them may blame the end of the input. -/
def BlameInOrder (tokens : List Token) (diagnostics : List Diagnostic) : Prop :=
  ∃ body finish positions, tokens = body ++ [finish] ∧ finish.kind = .endOfInput ∧
    List.Forall₂ (fun d i => ∃ t message, tokens[i]? = some t ∧ d = .atToken .parse t message)
      diagnostics positions ∧
    positions.Pairwise fun i j => i < j ∨ i = j ∧ i = body.length

/-- The parser blames the tokens of a whole stream in their order. -/
theorem blameInOrder_parse {body : List Token} {finish : Token}
    (hbody : ∀ t ∈ body, t.kind ≠ .endOfInput) (hfinish : finish.kind = .endOfInput) :
    BlameInOrder (body ++ [finish]) (parse (body ++ [finish])).diagnostics := by
  obtain ⟨blamed, atEnd, herrors, hsublist⟩ := blamed_sublist (body ++ [finish])
  obtain ⟨hbefore, hend⟩ := tokensBeforeEnd_append hbody hfinish
  rw [hbefore] at hsublist
  obtain ⟨positions, hpositions, hlt, hbound⟩ := exists_positions hsublist
  refine ⟨body, finish, positions ++ List.replicate atEnd body.length, rfl, hfinish, ?_, ?_⟩
  · have hinside : List.Forall₂ (fun o i => (body ++ [finish])[i]? = some (o.getD finish))
        (blamed.map some) positions := by
      rw [List.forall₂_map_left_iff]
      refine hpositions.imp fun t i hi => ?_
      rw [List.getElem?_append_left (List.getElem?_eq_some_iff.mp hi).1]
      exact hi
    have hlast : List.Forall₂ (fun o i => (body ++ [finish])[i]? = some (o.getD finish))
        (List.replicate atEnd none) (List.replicate atEnd body.length) :=
      forall₂_replicate (by simp) atEnd
    have hboth := List.rel_append hinside hlast
    simp only at hboth
    rw [← herrors, List.forall₂_map_left_iff] at hboth
    rw [Parse.diagnostics, List.forall₂_map_left_iff, parse_finish, hend]
    exact hboth.imp fun e i hi => ⟨_, _, hi, rfl⟩
  · refine List.pairwise_append.mpr ⟨hlt.imp .inl, ?_, fun i hi j hj => .inl ?_⟩
    · exact List.pairwise_replicate.mpr (.inr (.inr ⟨rfl, rfl⟩))
    · rw [List.eq_of_mem_replicate hj]
      exact hbound i hi

/-! ## Outcomes -/

namespace Outcome

/-- Nothing is reported. -/
def Succeeds (o : Outcome) : Prop :=
  o.status = .success ∧ o.diagnostics = [] ∧ o.hadError = false ∧ o.hadRuntimeError = false

/-- All lexical errors are reported and then all syntax errors, each in the order of the source. -/
def Rejects (source : String) (o : Outcome) : Prop :=
  o.status = .staticError ∧ o.diagnostics ≠ [] ∧ o.hadError = true ∧ o.hadRuntimeError = false ∧
    ∃ lexical syntactic, o.diagnostics = lexical ++ syntactic ∧
      (∀ d ∈ lexical, d.stage = .lex) ∧ (∀ d ∈ syntactic, d.stage = .parse) ∧
      (lexical.Pairwise fun d d' => d.span.start < d'.span.start) ∧
      BlameInOrder (scan source).tokens syntactic

/-- One runtime error is reported. -/
def Fails (o : Outcome) : Prop :=
  o.status = .runtimeError ∧ o.hadError = false ∧ o.hadRuntimeError = true ∧
    ∃ d, o.diagnostics = [d] ∧ d.stage = .runtime

end Outcome

/-- A source with errors is rejected with these. -/
theorem rejects_check {source : String} (h : (check source).diagnostics ≠ []) :
    Outcome.Rejects source ⟨.staticError, (check source).diagnostics⟩ := by
  obtain ⟨body, finish, htokens, hfinish, hbody⟩ := (laid_scan source).wellShaped.ends
  have hlexical : ∀ d ∈ (scan source).errors.map LexicalError.diagnostic, d.stage = .lex := by
    simp [LexicalError.diagnostic]
  have hsyntactic : ∀ d ∈ (parse (scan source).tokens).diagnostics, d.stage = .parse := by
    simp [Parse.diagnostics, SyntaxError.diagnostic, Diagnostic.atToken]
  have hstatic : ∀ d ∈ (check source).diagnostics, d.isStatic = true := by
    intro d hd
    rcases List.mem_append.mp hd with hd | hd
    · rw [Diagnostic.isStatic, hlexical d hd]
      rfl
    · rw [Diagnostic.isStatic, hsyntactic d hd]
      rfl
  refine ⟨rfl, h, ?_, ?_, _, _, rfl, hlexical, hsyntactic, ?_, ?_⟩
  · obtain ⟨d, hd⟩ := List.exists_mem_of_ne_nil _ h
    exact List.any_eq_true.mpr ⟨d, hd, hstatic d hd⟩
  · exact List.any_eq_false.mpr fun d hd => by simp [hstatic d hd]
  · exact (errors_scan_pairwise source).map _ fun _ _ h => h
  · rw [htokens]
    exact blameInOrder_parse hbody hfinish

/-- The outcome of a run is consistent: it is exactly one of a success without diagnostics, a
rejection with the static errors in the order of the source, and a failure with one runtime
error. -/
theorem outcome_consistent {fuel : Nat} {s s' : Session} {source : String} {outcome : Outcome}
    (hrun : s.run fuel source = some (outcome, s')) :
    (outcome.Succeeds ∧ ¬ outcome.Rejects source ∧ ¬ outcome.Fails) ∨
    (¬ outcome.Succeeds ∧ outcome.Rejects source ∧ ¬ outcome.Fails) ∨
    (¬ outcome.Succeeds ∧ ¬ outcome.Rejects source ∧ outcome.Fails) := by
  rw [Session.run_eq] at hrun
  split at hrun
  · generalize runProgram fuel (check source).program s.start = result at hrun
    rcases result with ⟨flow, m⟩ | ⟨e | _, m⟩
    · cases hrun
      exact .inl ⟨⟨rfl, rfl, rfl, rfl⟩, by simp [Outcome.Rejects], by simp [Outcome.Fails]⟩
    · cases hrun
      exact .inr (.inr ⟨by simp [Outcome.Succeeds], by simp [Outcome.Rejects],
        ⟨rfl, rfl, rfl, _, rfl, rfl⟩⟩)
    · cases hrun
  next hsome =>
    cases hrun
    have hrejects : Outcome.Rejects source _ := rejects_check (by simpa using hsome)
    exact .inr (.inl ⟨by simp [Outcome.Succeeds], hrejects, by simp [Outcome.Fails]⟩)

/-- A source with a lexical error and two syntax errors, the second one at its end. -/
theorem outcome_consistent_rejected :
    ∃ outcome s', (Session.new 10 {}).run 9 "x = )\n@\nif" = some (outcome, s') ∧
      outcome.diagnostics.map Diagnostic.text = ["[line 2] Error: Unexpected character.",
        "[line 1] Error at ')': Expect expression.", "[line 3] Error at end: Expect expression."] ∧
      outcome.Rejects "x = )\n@\nif" := by
  let source := "x = )\n@\nif"
  have hcheck : check source = checkUpTo 30 source := check_eq_checkUpTo (by decide +kernel)
  have hend : ((Session.new 10 {}).run 9 source).map (fun r =>
      (r.1.status, r.1.diagnostics.map Diagnostic.text)) =
        some (.staticError, ["[line 2] Error: Unexpected character.",
          "[line 1] Error at ')': Expect expression.",
          "[line 3] Error at end: Expect expression."]) := by
    rw [Session.run_eq, hcheck]
    decide +kernel
  obtain ⟨⟨outcome, s'⟩, hrun, hfound⟩ := Option.map_eq_some_iff.mp hend
  obtain ⟨hstatus, htexts⟩ := Prod.mk.inj hfound
  refine ⟨outcome, s', hrun, htexts, ?_⟩
  rcases outcome_consistent hrun with ⟨hsucceeds, -, -⟩ | ⟨-, hrejects, -⟩ | ⟨-, -, hfails⟩
  · exact absurd (hsucceeds.1.symm.trans hstatus) (by simp)
  · exact hrejects
  · exact absurd (hfails.1.symm.trans hstatus) (by simp)

end Offside
