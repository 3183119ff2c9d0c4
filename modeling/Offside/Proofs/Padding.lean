import Offside.Proofs.StmtAbreast

/-!
# Streams with further line ends

A stream whose tokens have moved, and which has further line ends where there is a line end already
or at the front, is parsed into the same program with the same errors, at the moved tokens. Every
form of the grammar skips line ends where further ones may be, and recovery stops behind a line end.
-/

namespace Offside

open Stmt

/-- The second stream is the first one with moved tokens and further line ends behind line ends. If
`loose`, there may be some in front, too. -/
inductive Padded (g : Token → Token) : Bool → List Token → List Token → Prop
  | nil {loose : Bool} : Padded g loose [] []
  | take {loose : Bool} {t : Token} {ts us : List Token} : Padded g (t.kind == .newline) ts us →
    Padded g loose (t :: ts) (g t :: us)
  | extra {u : Token} {ts us : List Token} : u.kind = .newline → Padded g true ts us →
    Padded g true ts (u :: us)

namespace Padded

variable {g : Token → Token} {loose : Bool} {t u : Token} {ts us : List Token}

/-- Padding may also be seen as padding that allows newlines in front. -/
theorem loosen (h : Padded g loose ts us) : Padded g true ts us := by
  cases h with
  | nil => exact .nil
  | take hrest => exact .take hrest
  | extra hu hrest => exact .extra hu hrest

/-- Where no newline is allowed the next token is the moved one. -/
theorem head_eq (h : Padded g false ts us) : us.head? = ts.head?.map g := by
  cases h with
  | nil => rfl
  | take _ => rfl

/-- Behind the next token newlines are allowed exactly after a newline. -/
theorem tail (h : Padded g false (t :: ts) (u :: us)) : Padded g (t.kind == .newline) ts us := by
  cases h with
  | take hrest => exact hrest

/-- Behind all line ends the streams agree again. -/
theorem dropNewlines (hg : IsMove g) (h : Padded g loose ts us) :
    Padded g false (dropNewlines ts) (dropNewlines us) := by
  induction h with
  | nil => exact .nil
  | @take _ t ts us hrest ih =>
    by_cases ht : t.kind = .newline
    · rw [dropNewlines_newline ht, dropNewlines_newline ((hg.kind t).trans ht)]
      exact ih
    · rw [dropNewlines_of_not_leads (by simpa using ht),
        dropNewlines_of_not_leads (by simpa [hg.kind] using ht)]
      exact .take hrest
  | extra hu _ ih =>
    rw [dropNewlines_newline hu]
    exact ih

/-- Behind a line end recovery stops at once, whatever follows. -/
theorem resumeAfter_newline (ht : t.kind = .newline) (ts : List Token) :
    Stmt.resumeAfter t ts = ts := by
  cases ts with
  | nil => rfl
  | cons next ts => rw [Stmt.resumeAfter, if_pos (.inl ht)]

/-- Both streams resume at corresponding places behind a token. -/
theorem resumeAfter (hg : IsMove g) (h : Padded g (t.kind == .newline) ts us) :
    Padded g true (resumeAfter t ts) (resumeAfter (g t) us) := by
  have hline {t : Token} {ts us : List Token} (ht : t.kind = .newline)
      (h : Padded g (t.kind == .newline) ts us) :
      Padded g true (Stmt.resumeAfter t ts) (Stmt.resumeAfter (g t) us) := by
    rw [resumeAfter_newline ht, resumeAfter_newline ((hg.kind t).trans ht)]
    exact h.loosen
  induction ts generalizing t us with
  | nil =>
    by_cases ht : t.kind = .newline
    · exact hline ht h
    · rw [beq_eq_false_iff_ne.mpr ht] at h
      cases h
      exact .nil
  | cons next ts ih =>
    by_cases ht : t.kind = .newline
    · exact hline ht h
    · rw [beq_eq_false_iff_ne.mpr ht] at h
      cases h with
      | take hrest =>
        simp only [Stmt.resumeAfter, hg.kind, ht, false_or]
        split
        · exact .take hrest
        · exact ih hrest

/-- Both streams resume at corresponding places. -/
theorem resume (hg : IsMove g) (h : Padded g false ts us) :
    Padded g true (resume ts) (resume us) := by
  cases h with
  | nil => exact .nil
  | take hrest => exact hrest.resumeAfter hg

/-- No line end is the end of the input, so the streams correspond up to there. -/
theorem beforeEnd (hg : IsMove g) (h : Padded g loose ts us) :
    Padded g loose (tokensBeforeEnd ts) (tokensBeforeEnd us) ∧
      us.find? (·.kind == .endOfInput) = (ts.find? (·.kind == .endOfInput)).map g := by
  induction h with
  | nil => exact ⟨.nil, rfl⟩
  | @take _ t ts us _ ih =>
    by_cases ht : t.kind = .endOfInput
    · simp only [tokensBeforeEnd, hg.kind, ht, List.takeWhile_cons, List.find?_cons,
        bne_self_eq_false, beq_self_eq_true]
      exact ⟨.nil, rfl⟩
    · have ht' : (t.kind == .endOfInput) = false := beq_eq_false_iff_ne.mpr ht
      simp only [tokensBeforeEnd, bne, hg.kind, ht', List.takeWhile_cons, List.find?_cons]
      exact ⟨.take ih.1, ih.2⟩
  | @extra u ts us hu _ ih =>
    simp only [tokensBeforeEnd, hu, List.takeWhile_cons, List.find?_cons]
    exact ⟨.extra hu ih.1, ih.2⟩

/-- Moved tokens in front of corresponding streams. -/
theorem prepend (front : List Token) (h : Padded g (t.kind == .newline) ts us) :
    Padded g loose (front ++ t :: ts) (front.map g ++ g t :: us) := by
  induction front generalizing loose with
  | nil => exact .take h
  | cons _ front ih => exact .take ih

/-- The moved stream itself, without further line ends. -/
theorem map (g : Token → Token) (loose : Bool) (ts : List Token) :
    Padded g loose ts (ts.map g) := by
  induction ts generalizing loose with
  | nil => exact .nil
  | cons t ts ih => exact .take (ih _)

end Padded

/-- A run on a stream and one on the stream with further line ends. -/
def Pace.padded {g : Token → Token} (hg : IsMove g) : Pace g where
  inLine _ s s' := Padded g false s.rest s'.rest ∧ s'.errors = s.errors.map (SyntaxError.move g)
  atStart _ s s' := Padded g false s.rest s'.rest ∧ s'.errors = s.errors.map (SyntaxError.move g)
  atLine _ s s' := Padded g true s.rest s'.rest ∧ s'.errors = s.errors.map (SyntaxError.move g)
  passing _ _ := True
  isMove := hg
  agree h := h.1.head_eq
  agreeStart h := h.1.head_eq
  take h ht := by
    have hrest := h.1.tail
    rw [beq_eq_false_iff_ne.mpr (Kind.ne_of_isStructural ht rfl)] at hrest
    exact ⟨hrest, h.2⟩
  line h _ := ⟨h.1.tail.loosen, h.2⟩
  skip h := ⟨h.1.dropNewlines hg, h.2⟩
  passes _ := trivial
  passesStart _ := trivial
  relax h := ⟨h.1.loosen, h.2⟩
  relaxStart h := ⟨h.1.loosen, h.2⟩
  start h _ := h
  opens h _ := ⟨h.1.tail.loosen, h.2⟩
  closes h ht := by
    have hrest := h.1.tail
    rw [ht] at hrest
    exact ⟨hrest, h.2⟩
  record h _ := ⟨h.1.resume hg, by rw [h.2, List.map_cons]⟩
  lost h := ⟨.nil, congrArg (_ :: ·) h.2⟩

/-- A parse with moved tokens. -/
def Parse.move (g : Token → Token) (p : Parse) : Parse :=
  ⟨moveEach g p.program, p.errors.map (SyntaxError.move g), g p.finish⟩

/-- Further line ends do not change what is parsed. -/
theorem parse_of_padded {g : Token → Token} (hg : IsMove g) {tokens tokens' : List Token}
    (h : Padded g true tokens tokens') (hend : ∃ t ∈ tokens, t.kind = .endOfInput) :
    parse tokens' = (parse tokens).move g := by
  obtain ⟨hbody, hfind⟩ := h.beforeEnd hg
  have hfinish : endOf tokens' = g (endOf tokens) := by
    obtain ⟨t, ht, hkind⟩ := hend
    have hfound : (tokens.find? (·.kind == .endOfInput)).isSome :=
      List.find?_isSome.mpr ⟨t, ht, beq_iff_eq.mpr hkind⟩
    obtain ⟨finish, hfinish⟩ := Option.isSome_iff_exists.mp hfound
    rw [endOf, endOf, hfind, hfinish]
    rfl
  have hstart : (Pace.padded hg).atLine 0 ⟨tokensBeforeEnd tokens, []⟩
      ⟨tokensBeforeEnd tokens', []⟩ := ⟨hbody, rfl⟩
  obtain ⟨program, es, es', hrun, hrun', -, herrors⟩ := readProgram_abreast
    (Parser.ofReader (Reader.fail .expression)) (Parser.ofReader (Reader.fail .expression))
    (Nat.lt_succ_self _) (Nat.lt_succ_self _) hstart
  rw [Stmt.readOver_fail] at hrun hrun'
  simp only at herrors
  rw [parse_eq, parse_eq, hrun, hrun', herrors, hfinish]
  simp only [Parse.move, List.map_reverse]

/-- The reports of a moved parse. -/
theorem Parse.diagnostics_move {g : Token → Token} (p : Parse) :
    (p.move g).diagnostics =
      p.errors.map fun e => .atToken .parse (g (e.blamed.getD p.finish)) e.fault.message := by
  rw [Parse.diagnostics, Parse.move, List.map_map]
  refine List.map_congr_left fun e _ => ?_
  obtain ⟨fault, _ | blamed⟩ := e
  · rfl
  · rfl

end Offside
