import Offside.Proofs.ParsersAbreast

/-!
# Statements read side by side

If two readers of statements keep pace on the statements of a block, so do the readers of sequences,
of blocks and of every form of statement. A nested statement has a token less in front of it, so the
limits on the depth do not matter when they are larger than the number of tokens.
-/

namespace Offside.Stmt

open Reader Pace

variable {g : Token → Token} {P : Pace g} {d n n' limit limit' : Nat}
  {statement statement' : Parser Stmt}

/-! ## Sequences -/

/-- What is resumed behind a token ends the stream. -/
theorem resumeAfter_suffix (skipped : Token) (ts : List Token) :
    resumeAfter skipped ts <:+ ts := by
  induction ts generalizing skipped with
  | nil => exact List.suffix_refl _
  | cons t ts ih =>
    rw [resumeAfter]
    split
    · exact List.suffix_refl _
    · exact (ih t).trans (List.suffix_cons t ts)

/-- What is resumed ends the stream. -/
theorem resume_suffix (ts : List Token) : resume ts <:+ ts := by
  cases ts with
  | nil => exact List.suffix_refl _
  | cons t ts => exact (resumeAfter_suffix t ts).trans (List.suffix_cons t ts)

/-- Behind an error the parser skips a token, or there is none left. -/
theorem length_resume_lt {ts : List Token} {m : Nat} (hts : ts.length ≤ m) (hm : 0 < m) :
    (resume ts).length < m := by
  cases ts with
  | nil => exact hm
  | cons t ts =>
    have hlength := (resumeAfter_suffix t ts).length_le
    rw [List.length_cons] at hts
    rw [resume]
    omega

/-- Both parsers read a statement or skip tokens, and both move on. -/
theorem recover_abreast
    (hstatement : P.Abreast d n n' 1 (Stmt.move g) (P.atStart d) (P.atLine d) statement statement')
    (s s' : Parsing) (hs : s.rest.length < n) (hs' : s'.rest.length < n')
    (hstate : P.atStart d s s')
    (hrest : 0 < s.rest.length) (hrest' : 0 < s'.rest.length) :
    ∃ found t t', recover statement s = .ok found t ∧
      recover statement' s' = .ok (found.map (Stmt.move g)) t' ∧ P.atLine d t t' ∧
      t.rest.length < s.rest.length ∧ t'.rest.length < s'.rest.length := by
  have houtcome := hstatement s s' hs hs' hstate
  unfold recover
  generalize statement s = x at houtcome
  generalize statement' s' = x' at houtcome
  cases houtcome with
  | ok hend hlength hlength' => exact ⟨_, _, _, rfl, rfl, hend, by omega, by omega⟩
  | error hplace hrecorded hlength hlength' =>
    exact ⟨none, _, _, rfl, rfl, hrecorded, length_resume_lt hlength hrest,
      length_resume_lt hlength' hrest'⟩

/-- At the start of a line both streams hold further statements or neither does. -/
theorem dropNewlines_eq_nil_of_atLine {ts us : List Token} {es es' : List SyntaxError}
    (hstate : P.atLine d ⟨ts, es⟩ ⟨us, es'⟩) : dropNewlines us = [] ↔ dropNewlines ts = [] := by
  have hhead := P.agreeStart (P.skip hstate)
  rw [← List.head?_eq_none_iff, ← List.head?_eq_none_iff, hhead, Option.map_eq_none_iff]

/-- Where a sequence ends: at a token that stops it, or at the end of the input. -/
def Stopped (stop : Kind → Bool) (s : Parsing) : Prop := s.rest = [] ∨ leads stop s.rest = true

/-- A round of a sequence never fails: it stops in both runs, or it takes tokens in both. -/
theorem readNext_abreast
    (hstatement : P.Abreast d n n' 1 (Stmt.move g) (P.atStart d) (P.atLine d) statement statement')
    (stop : Kind → Bool) {s s' : Parsing} (hs : s.rest.length < n) (hs' : s'.rest.length < n')
    (hstate : P.atLine d s s') :
    (∃ t t', readNext stop statement s = .ok none t ∧ readNext stop statement' s' = .ok none t' ∧
      P.atStart d t t' ∧ Stopped stop t ∧ t.rest.length ≤ s.rest.length ∧
      t'.rest.length ≤ s'.rest.length) ∨
    ∃ found t t', readNext stop statement s = .ok (some found) t ∧
      readNext stop statement' s' = .ok (some (found.map (Stmt.move g))) t' ∧ P.atLine d t t' ∧
      t.rest.length < s.rest.length ∧ t'.rest.length < s'.rest.length := by
  obtain ⟨ts, es⟩ := s
  obtain ⟨us, es'⟩ := s'
  have hstart := P.skip hstate
  have hlength := length_dropNewlines_le ts
  have hlength' := length_dropNewlines_le us
  rw [readNext_apply, readNext_apply]
  simp only at hs hs' ⊢
  cases hts : dropNewlines ts with
  | nil =>
    have hus := (dropNewlines_eq_nil_of_atLine hstate).mpr hts
    rw [hts, hus] at hstart
    rw [hus]
    exact .inl ⟨_, _, rfl, rfl, hstart, .inl rfl, Nat.zero_le _, Nat.zero_le _⟩
  | cons t ts' =>
    rw [hts] at hstart hlength
    obtain ⟨us', hus⟩ := List.head?_eq_some_iff.mp (P.agreeStart hstart)
    simp only at hus
    rw [hus] at hstart hlength' ⊢
    simp only [P.isMove.kind]
    split
    next hstop => exact .inl ⟨_, _, rfl, rfl, hstart, .inr hstop, hlength, hlength'⟩
    next =>
      obtain ⟨found, s, s', hrun, hrun', hend, hless, hless'⟩ :=
        recover_abreast hstatement ⟨t :: ts', es⟩ ⟨g t :: us', es'⟩
          (Nat.lt_of_le_of_lt hlength hs) (Nat.lt_of_le_of_lt hlength' hs') hstart
          (Nat.zero_lt_succ _) (Nat.zero_lt_succ _)
      refine .inr ⟨found, s, s', bind_eq_ok.mpr ⟨found, s, hrun, rfl⟩,
        bind_eq_ok.mpr ⟨_, s', hrun', rfl⟩, hend, ?_, ?_⟩
      · exact Nat.lt_of_lt_of_le hless hlength
      · exact Nat.lt_of_lt_of_le hless' hlength'

/-- Only line ends are left. -/
theorem collect_readNext_ended (stop : Kind → Bool) (statement : Parser Stmt)
    (done : List (Option Stmt)) {ts : List Token} (hts : dropNewlines ts = [])
    (hlimit : ts.length ≤ limit) (es : List SyntaxError) :
    collect (readNext stop statement) done limit ⟨ts, es⟩ = .ok done.reverse ⟨[], es⟩ := by
  cases limit with
  | zero =>
    obtain rfl := List.length_eq_zero_iff.mp (Nat.le_zero.mp hlimit)
    rfl
  | succ limit =>
    have hround : readNext stop statement ⟨ts, es⟩ = .ok none ⟨[], es⟩ := by
      rw [readNext_apply, hts]
    exact bind_eq_ok.mpr ⟨none, _, hround, rfl⟩

/-- Both parsers collect corresponding statements up to the same stop. -/
theorem collect_readNext_abreast
    (hstatement : P.Abreast d n n' 1 (Stmt.move g) (P.atStart d) (P.atLine d) statement statement')
    (stop : Kind → Bool) (limit limit' : Nat) (done : List (Option Stmt)) {s s' : Parsing}
    (hs : s.rest.length < n) (hs' : s'.rest.length < n') (hlimit : s.rest.length ≤ limit)
    (hlimit' : s'.rest.length ≤ limit') (hstate : P.atLine d s s') :
    ∃ found t t', collect (readNext stop statement) done limit s = .ok found t ∧
      collect (readNext stop statement') (done.map (Option.map (Stmt.move g))) limit' s' =
        .ok (found.map (Option.map (Stmt.move g))) t' ∧
      P.atStart d t t' ∧ Stopped stop t ∧ t.rest.length ≤ s.rest.length ∧
      t'.rest.length ≤ s'.rest.length := by
  -- Both limits are at least the number of tokens left, and every round takes one.
  induction limit generalizing limit' done s s' with
  | zero =>
    obtain ⟨ts, es⟩ := s
    obtain ⟨us, es'⟩ := s'
    obtain rfl : ts = [] := List.length_eq_zero_iff.mp (Nat.le_zero.mp hlimit)
    have hus := (dropNewlines_eq_nil_of_atLine hstate).mpr rfl
    have hstart := P.skip hstate
    rw [hus] at hstart
    refine ⟨done.reverse, ⟨[], es⟩, ⟨[], es'⟩, rfl, ?_, hstart, .inl rfl, Nat.zero_le _,
      Nat.zero_le _⟩
    rw [collect_readNext_ended stop statement' _ hus hlimit', List.map_reverse]
  | succ limit ih =>
    cases limit' with
    | zero =>
      obtain ⟨ts, es⟩ := s
      obtain ⟨us, es'⟩ := s'
      obtain rfl : us = [] := List.length_eq_zero_iff.mp (Nat.le_zero.mp hlimit')
      have hts := (dropNewlines_eq_nil_of_atLine hstate).mp rfl
      have hstart := P.skip hstate
      rw [hts] at hstart
      refine ⟨done.reverse, ⟨[], es⟩, ⟨[], es'⟩,
        collect_readNext_ended stop statement _ hts hlimit es, ?_, hstart, .inl rfl,
        Nat.zero_le _, Nat.zero_le _⟩
      rw [List.map_reverse]
      rfl
    | succ limit' =>
      rcases readNext_abreast hstatement stop hs hs' hstate with
        ⟨t, t', hrun, hrun', hstart, hstopped, hless, hless'⟩ |
        ⟨found, t, t', hrun, hrun', hline, hless, hless'⟩
      · refine ⟨done.reverse, t, t', bind_eq_ok.mpr ⟨none, t, hrun, rfl⟩,
          bind_eq_ok.mpr ⟨none, t', hrun', ?_⟩, hstart, hstopped, hless, hless'⟩
        rw [List.map_reverse]
        rfl
      · obtain ⟨all, u, u', hmore, hmore', hstart, hstopped, hbound, hbound'⟩ :=
          ih limit' (found :: done) (by omega) (by omega) (by omega) (by omega) hline
        exact ⟨all, u, u', bind_eq_ok.mpr ⟨some found, t, hrun, hmore⟩,
          bind_eq_ok.mpr ⟨_, t', hrun', hmore'⟩, hstart, hstopped, by omega, by omega⟩

/-- A sequence never fails. -/
theorem readSequence_abreast
    (hstatement : P.Abreast d n n' 1 (Stmt.move g) (P.atStart d) (P.atLine d) statement statement')
    (stop : Kind → Bool) (hn : n ≤ limit + 1) (hn' : n' ≤ limit' + 1) {s s' : Parsing}
    (hs : s.rest.length < n) (hs' : s'.rest.length < n') (hstate : P.atLine d s s') :
    ∃ body t t', readSequence limit stop statement s = .ok body t ∧
      readSequence limit' stop statement' s' = .ok (moveEach g body) t' ∧ P.atStart d t t' ∧
      Stopped stop t ∧ t.rest.length ≤ s.rest.length ∧ t'.rest.length ≤ s'.rest.length := by
  obtain ⟨found, t, t', hrun, hrun', hend⟩ :=
    collect_readNext_abreast hstatement stop limit limit' [] hs hs' (by omega) (by omega) hstate
  have hfound : (found.map (Option.map (Stmt.move g))).filterMap id =
      moveEach g (found.filterMap id) := by
    rw [moveEach_eq, List.filterMap_map, List.map_filterMap]
    rfl
  refine ⟨found.filterMap id, t, t', bind_eq_ok.mpr ⟨found, t, hrun, rfl⟩, ?_, hend⟩
  rw [← hfound]
  exact bind_eq_ok.mpr ⟨_, t', hrun', rfl⟩

/-- Both parsers read corresponding sequences of statements. -/
theorem abreast_readSequence
    (hstatement : P.Abreast d n n' 1 (Stmt.move g) (P.atStart d) (P.atLine d) statement statement')
    (stop : Kind → Bool) (hn : n ≤ limit + 1) (hn' : n' ≤ limit' + 1) (outer : Nat) :
    P.Abreast outer n n' 0 (moveEach g) (P.atLine d)
      (fun s s' => P.atStart d s s' ∧ Stopped stop s)
      (readSequence limit stop statement) (readSequence limit' stop statement') := by
  intro s s' hs hs' hstate
  obtain ⟨body, t, t', hrun, hrun', hstart, hstopped, hless, hless'⟩ :=
    readSequence_abreast hstatement stop hn hn' hs hs' hstate
  rw [hrun, hrun']
  exact .ok ⟨hstart, hstopped⟩ hless hless'

/-! ## Blocks -/

/-- A token inside a line, without the number of tokens that it takes. -/
theorem abreast_anyToken {kind : Kind} (hkind : kind.isStructural = false) {what : Expectation}
    (hwhat : what ≠ .blockEnd) :
    P.Abreast d n n' 0 g (P.inLine d) (P.inLine d) (Parser.ofReader (expect kind what))
      (Parser.ofReader (expect kind what)) :=
  .ofReader fun _ _ => (Lines.abreast_expect hkind hwhat).weaken (Nat.zero_le _)

/-- A block is closed by its dedent, or it is lost at the end of the input. -/
theorem abreast_expectDedent :
    P.Abreast d n n' 1 g (fun s s' => P.atStart (d + 1) s s' ∧ Stopped (· == .dedent) s)
      (P.inLine d) (Parser.ofReader (expect .dedent .blockEnd))
      (Parser.ofReader (expect .dedent .blockEnd)) := by
  rintro ⟨ts, es⟩ ⟨us, es'⟩ _ _ ⟨hstart, hstopped⟩
  cases ts with
  | nil =>
    obtain rfl : us = [] := by simpa using P.agreeStart hstart
    exact .error (P.passesStart hstart) (P.lost hstart) (Nat.le_refl _) (Nat.le_refl _)
  | cons t ts =>
    have ht : t.kind = .dedent := by simpa [Stopped] using hstopped
    obtain ⟨us, rfl⟩ := List.head?_eq_some_iff.mp (P.agreeStart hstart)
    rw [ofReader_expect_cons ht, ofReader_expect_cons ((P.isMove.kind t).trans ht)]
    exact .ok (P.closes hstart ht) (Nat.le_refl _) (Nat.le_refl _)

section

variable
  (hstatement : ∀ d, P.Abreast d n n' 1 (Stmt.move g) (P.atStart d) (P.atLine d) statement
    statement')
  (hn : n ≤ limit) (hn' : n' ≤ limit')

include hstatement hn hn'

/-- A block has a token more than the statements in it. -/
theorem abreast_readBlock :
    P.Abreast d (n + 1) (n' + 1) 1 (moveEach g) (P.atLine d) (P.inLine d)
      (readBlock limit statement) (readBlock limit' statement') := by
  refine abreast_skipNewlines.bind (l := 1) fun _ => ?_
  refine abreast_expectIndent.bind (l := 0) fun _ => ?_
  have hbody := abreast_readSequence (hstatement (d + 1)) (· == .dedent) (Nat.le_add_right_of_le hn)
    (Nat.le_add_right_of_le hn') d
  refine hbody.bind (l := 0) fun body => ?_
  refine (abreast_expectDedent.mono (Nat.le_refl _) (Nat.le_refl _) (Nat.zero_le _)).bind (l := 0)
    fun _ => ?_
  exact abreast_pure body

/-- Both parsers read corresponding bodies. -/
theorem abreast_readBody (header : Header) :
    P.Abreast d (n + 1) (n' + 1) 0 (moveEach g) (P.inLine d) (P.inLine d)
      (readBody limit statement header) (readBody limit' statement' header) := by
  refine (abreast_anyToken rfl (by simp)).bind (l := 0) fun _ => ?_
  have hline : P.Abreast d (n + 1) (n' + 1) 0 g (P.inLine d) (P.atLine d)
      (Parser.ofReader (expect .newline (.lineEnd header)))
      (Parser.ofReader (expect .newline (.lineEnd header))) :=
    (abreast_expectLine (by simp)).mono (Nat.le_refl _) (Nat.le_refl _) (Nat.zero_le _)
  refine hline.bind (l := 0) fun _ => ?_
  exact (abreast_readBlock hstatement hn hn').mono (Nat.le_refl _) (Nat.le_refl _) (Nat.zero_le _)

end

/-! ## Ranges and parameters -/

section

variable {L : Lines g}

/-- The bounds of a range with moved tokens. -/
def moveBounds (g : Token → Token) (bounds : Option Expr × Expr × Option Expr) :
    Option Expr × Expr × Option Expr :=
  (bounds.1.map (Expr.move g), bounds.2.1.move g, bounds.2.2.map (Expr.move g))

/-- Both readers read corresponding bounds of a counting loop. -/
theorem abreast_readRange (hn : n ≤ limit + 1) (hn' : n' ≤ limit' + 1) :
    L.Abreast n n' 0 (moveBounds g) (readRange limit) (readRange limit') := by
  have hexpr : L.Abreast n n' 0 (Expr.move g) (Expr.read limit) (Expr.read limit') :=
    (Expr.abreast_read limit limit').mono hn hn' (Nat.zero_le _)
  have hclose {bounds bounds' : Option Expr × Expr × Option Expr}
      (h : bounds' = moveBounds g bounds) :
      L.Abreast n n' 0 (moveBounds g) (closeRange bounds) (closeRange bounds') := by
    subst h
    exact ((Lines.abreast_expect rfl (by simp)).weaken (Nat.zero_le _)).bind (l := 0) fun _ =>
      Lines.abreast_pure bounds
  rw [readRange_eq, readRange_eq]
  refine ((Lines.abreast_expect rfl (by simp)).weaken (Nat.zero_le _)).bind (l := 0) fun _ => ?_
  refine hexpr.bind (l := 0) fun first => ?_
  refine Lines.Abreast.accept rfl (hclose rfl) fun _ _ => ?_
  refine hexpr.bind (l := 0) fun second => ?_
  refine Lines.Abreast.accept rfl (hclose rfl) fun _ _ => ?_
  exact hexpr.bind (l := 0) fun third => hclose rfl

/-- A further parameter is a name behind a comma. -/
theorem readParameterTail_eq :
    readParameterTail =
      Reader.tail (· == .symbol .comma) fun _ => expect .identifier .parameterName := by
  rw [readParameterTail, Reader.tail]
  refine bind_congr fun comma => ?_
  cases comma with
  | none => rfl
  | some comma => rw [map_eq_pure_bind]

/-- Both readers read corresponding parameters. -/
theorem abreast_readParameters (hn : n ≤ limit + 1) (hn' : n' ≤ limit' + 1) :
    L.Abreast n n' 0 (List.map g) (readParameters limit) (readParameters limit') := by
  have hname {m m' : Nat} : L.Abreast m m' 0 g (expect .identifier .parameterName)
      (expect .identifier .parameterName) :=
    (Lines.abreast_expect rfl (by simp)).weaken (Nat.zero_le _)
  have hnames : L.Abreast n n' 0 (List.map g) (readParameterNames limit)
      (readParameterNames limit') := by
    refine (Lines.abreast_nextIs _).bind (l := 0) fun next => ?_
    cases next with
    | true => exact Lines.abreast_pure []
    | false =>
      refine hname.bind (l := 0) fun first => ?_
      have hmore : L.Abreast n n' 0 (List.map g) (collect readParameterTail [] limit)
          (collect readParameterTail [] limit') := by
        rw [readParameterTail_eq]
        refine Lines.abreast_collect (fun kind hkind => ?_) (fun _ _ => hname) hn hn'
        obtain rfl : kind = .symbol .comma := by simpa using hkind
        rfl
      exact hmore.bind (l := 0) fun more => Lines.abreast_pure (first :: more)
  refine ((Lines.abreast_expect rfl (by simp)).weaken (Nat.zero_le _)).bind (l := 0) fun _ => ?_
  refine hnames.bind (l := 0) fun names => ?_
  refine ((Lines.abreast_expect rfl (by simp)).weaken (Nat.zero_le _)).bind (l := 0) fun _ => ?_
  exact Lines.abreast_pure names

end

/-! ## Compound statements -/

/-- An expression inside a line. -/
theorem abreast_expr (hn : n ≤ limit + 1) (hn' : n' ≤ limit' + 1) :
    P.Abreast d n n' 1 (Expr.move g) (P.inLine d) (P.inLine d)
      (Parser.ofReader (Expr.read limit)) (Parser.ofReader (Expr.read limit')) :=
  .ofReader fun _ _ => (Expr.abreast_read limit limit').mono hn hn' (Nat.le_refl _)

/-- An expression, without the number of tokens that it takes. -/
theorem abreast_anyExpr (hn : n ≤ limit + 1) (hn' : n' ≤ limit' + 1) :
    P.Abreast d n n' 0 (Expr.move g) (P.inLine d) (P.inLine d)
      (Parser.ofReader (Expr.read limit)) (Parser.ofReader (Expr.read limit')) :=
  (abreast_expr hn hn').mono (Nat.le_refl _) (Nat.le_refl _) (Nat.zero_le _)

/-- At the end of the stream there is no alternative. -/
theorem readAlternative_nil (limit : Nat) (statement : Parser Stmt) (count : Nat)
    (es : List SyntaxError) :
    readAlternative limit statement count ⟨[], es⟩ = .ok .nothing ⟨[], es⟩ := by
  cases count with
  | zero => rfl
  | succ count => rfl

section

variable
  (hstatement : ∀ d, P.Abreast d n n' 1 (Stmt.move g) (P.atStart d) (P.atLine d) statement
    statement')
  (hn : n ≤ limit) (hn' : n' ≤ limit')

include hstatement hn hn'

/-- Every further clause takes a token, so there are no more of them than tokens. -/
theorem abreast_readAlternative (count count' : Nat) {m m' : Nat} (hm : m ≤ n + 1)
    (hm' : m' ≤ n' + 1) (hcount : m ≤ count + 1) (hcount' : m' ≤ count' + 1) :
    P.Abreast d m m' 0 (Alternative.move g) (P.inLine d) (P.inLine d)
      (readAlternative limit statement count) (readAlternative limit' statement' count') := by
  have hnothing (count count' : Nat) {es es' : List SyntaxError}
      (hstate : P.inLine d ⟨[], es⟩ ⟨[], es'⟩) :
      P.Outcome d 0 0 0 (Alternative.move g) (P.inLine d)
        (readAlternative limit statement count ⟨[], es⟩)
        (readAlternative limit' statement' count' ⟨[], es'⟩) := by
    rw [readAlternative_nil, readAlternative_nil]
    exact .ok hstate (Nat.le_refl _) (Nat.le_refl _)
  induction count generalizing count' m m' with
  | zero =>
    rintro ⟨ts, es⟩ ⟨us, es'⟩ hs _ hstate
    obtain rfl : ts = [] := List.length_eq_zero_iff.mp (by simp only at hs; omega)
    obtain rfl : us = [] := by simpa using P.agree hstate
    exact hnothing 0 count' hstate
  | succ count ih =>
    cases count' with
    | zero =>
      rintro ⟨ts, es⟩ ⟨us, es'⟩ _ hs' hstate
      obtain rfl : us = [] := List.length_eq_zero_iff.mp (by simp only at hs'; omega)
      obtain rfl : ts = [] := by simpa [eq_comm] using P.agree hstate
      exact hnothing (count + 1) 0 hstate
    | succ count' =>
      have hbody (header : Header) {l l' : Nat} (hl : l ≤ m) (hl' : l' ≤ m') :
          P.Abreast d l l' 0 (moveEach g) (P.inLine d) (P.inLine d)
            (readBody limit statement header) (readBody limit' statement' header) :=
        (abreast_readBody hstatement hn hn' header).mono (by omega) (by omega) (Nat.le_refl _)
      refine Abreast.accept rfl ?_ fun _ _ => ?_
      · refine Abreast.accept rfl (abreast_pure _) fun _ _ => ?_
        refine (hbody .else_ (Nat.le_refl _) (Nat.le_refl _)).bind (l := 0) fun body => ?_
        exact abreast_pure (Alternative.last body)
      · have hcondition : P.Abreast d m m' 1 (Expr.move g) (P.inLine d) (P.inLine d)
            (Parser.ofReader (Expr.read limit)) (Parser.ofReader (Expr.read limit')) :=
          abreast_expr (by omega) (by omega)
        refine (hcondition.bind (l := 0) fun condition => ?_).mono (Nat.le_refl _) (Nat.le_refl _)
          (Nat.zero_le _)
        refine (hbody .elif_ (Nat.sub_le _ _) (Nat.sub_le _ _)).bind (l := 0) fun body => ?_
        have hmore := ih count' (m := m - 1) (Nat.le_trans (Nat.sub_le m 1) hm)
          (Nat.le_trans (Nat.sub_le m' 1) hm') (by omega) (by omega)
        exact hmore.bind (l := 0) fun otherwise =>
          abreast_pure (Alternative.another condition body otherwise)

/-- Both parsers read corresponding conditionals. -/
theorem abreast_readBranch :
    P.Abreast d (n + 1) (n' + 1) 0 (Stmt.move g) (P.inLine d) (P.inLine d)
      (readBranch limit statement) (readBranch limit' statement') := by
  refine (abreast_anyExpr (by omega) (by omega)).bind (l := 0) fun condition => ?_
  refine (abreast_readBody hstatement hn hn' .if_).bind (l := 0) fun body => ?_
  have hmore : P.Abreast d (n + 1) (n' + 1) 0 (Alternative.move g) (P.inLine d) (P.inLine d)
      (readAlternative limit statement limit) (readAlternative limit' statement' limit') :=
    abreast_readAlternative hstatement hn hn' limit limit' (Nat.le_refl _) (Nat.le_refl _)
      (by omega) (by omega)
  exact hmore.bind (l := 0) fun otherwise => abreast_pure (Stmt.branch condition body otherwise)

/-- Both parsers read corresponding while loops. -/
theorem abreast_readLoop :
    P.Abreast d (n + 1) (n' + 1) 0 (Stmt.move g) (P.inLine d) (P.inLine d)
      (readLoop limit statement) (readLoop limit' statement') := by
  refine (abreast_anyExpr (by omega) (by omega)).bind (l := 0) fun condition => ?_
  refine (abreast_readBody hstatement hn hn' .while_).bind (l := 0) fun body => ?_
  exact abreast_pure (Stmt.loop condition body)

/-- Both parsers read corresponding for loops. -/
theorem abreast_readFor :
    P.Abreast d (n + 1) (n' + 1) 0 (Stmt.move g) (P.inLine d) (P.inLine d)
      (readFor limit statement) (readFor limit' statement') := by
  refine (abreast_anyToken rfl (by simp)).bind (l := 0) fun name => ?_
  refine (abreast_anyToken rfl (by simp)).bind (l := 0) fun _ => ?_
  refine Abreast.accept rfl ?_ fun _ _ => ?_
  · refine (abreast_anyExpr (by omega) (by omega)).bind (l := 0) fun iterable => ?_
    refine (abreast_readBody hstatement hn hn' .for_).bind (l := 0) fun body => ?_
    exact abreast_pure (Stmt.forEach name iterable body)
  · have hrange : P.Abreast d (n + 1) (n' + 1) 0 (moveBounds g) (P.inLine d) (P.inLine d)
        (Parser.ofReader (readRange limit)) (Parser.ofReader (readRange limit')) :=
      .ofReader fun _ _ => abreast_readRange (by omega) (by omega)
    refine hrange.bind (l := 0) fun bounds => ?_
    refine (abreast_readBody hstatement hn hn' .for_).bind (l := 0) fun body => ?_
    exact abreast_pure (Stmt.forRange name bounds.1 bounds.2.1 bounds.2.2 body)

/-- Both parsers read corresponding function definitions. -/
theorem abreast_readDefinition :
    P.Abreast d (n + 1) (n' + 1) 0 (Stmt.move g) (P.inLine d) (P.inLine d)
      (readDefinition limit statement) (readDefinition limit' statement') := by
  refine (abreast_anyToken rfl (by simp)).bind (l := 0) fun name => ?_
  have hparameters : P.Abreast d (n + 1) (n' + 1) 0 (List.map g) (P.inLine d) (P.inLine d)
      (Parser.ofReader (readParameters limit)) (Parser.ofReader (readParameters limit')) :=
    .ofReader fun _ _ => abreast_readParameters (by omega) (by omega)
  refine hparameters.bind (l := 0) fun parameters => ?_
  refine (abreast_readBody hstatement hn hn' .def_).bind (l := 0) fun body => ?_
  exact abreast_pure (Stmt.define name parameters body)

end

/-! ## Statements that fill a line -/

/-- The line ends behind a statement. -/
theorem abreast_endLine (s : Stmt) :
    P.Abreast d n n' 0 (Stmt.move g) (P.inLine d) (P.atLine d)
      (Parser.ofReader skipNewlines >>= fun _ => Parser.ofReader (pure s))
      (Parser.ofReader skipNewlines >>= fun _ => Parser.ofReader (pure (s.move g))) := by
  refine (abreast_skipNewlines.from fun _ _ => P.relax).bind (l := 0) fun _ => ?_
  exact (abreast_pure s).weaken (Nat.le_refl _) fun _ _ => P.relaxStart

/-- Both parsers read corresponding print statements. -/
theorem abreast_readPrint (hn : n ≤ limit + 1) (hn' : n' ≤ limit' + 1) (keyword : Token) :
    P.Abreast d n n' 0 (Stmt.move g) (P.inLine d) (P.atLine d)
      (Parser.ofReader (readPrint limit keyword))
      (Parser.ofReader (readPrint limit' (g keyword))) := by
  simp only [readPrint, ofReader_bind]
  refine (abreast_anyToken rfl (by simp)).bind (l := 0) fun _ => ?_
  refine (abreast_anyExpr hn hn').bind (l := 0) fun value => ?_
  refine (abreast_anyToken rfl (by simp)).bind (l := 0) fun _ => ?_
  exact abreast_endLine (Stmt.print keyword value)

/-- Both parsers read corresponding assignments. -/
theorem abreast_readAssign (hn : n ≤ limit + 1) (hn' : n' ≤ limit' + 1) (name : Token) :
    P.Abreast d n n' 0 (Stmt.move g) (P.inLine d) (P.atLine d)
      (Parser.ofReader (readAssign limit name))
      (Parser.ofReader (readAssign limit' (g name))) := by
  simp only [readAssign, ofReader_bind]
  refine (abreast_anyToken rfl (by simp)).bind (l := 0) fun _ => ?_
  refine (abreast_anyExpr hn hn').bind (l := 0) fun value => ?_
  exact abreast_endLine (Stmt.assign name value)

/-- Both parsers read corresponding expression statements. -/
theorem abreast_readExpression (hn : n ≤ limit + 1) (hn' : n' ≤ limit' + 1) :
    P.Abreast d n n' 1 (Stmt.move g) (P.inLine d) (P.atLine d)
      (Parser.ofReader (readExpression limit)) (Parser.ofReader (readExpression limit')) := by
  simp only [readExpression, ofReader_bind]
  refine (abreast_expr hn hn').bind (l := 0) fun value => ?_
  exact abreast_endLine (Stmt.expression value)

/-- A return statement has a value unless its line ends. -/
theorem ofReader_readReturn (limit : Nat) (keyword : Token) (ts : List Token)
    (es : List SyntaxError) :
    Parser.ofReader (readReturn limit keyword) ⟨ts, es⟩ =
      if leads (fun kind => kind != .newline && kind != .dedent) ts then
        Parser.ofReader (do
          let value ← Expr.read limit
          skipNewlines
          return .return keyword (some value)) ⟨ts, es⟩
      else .ok (.return keyword none) ⟨dropNewlines ts, es⟩ := by
  simp only [Parser.ofReader, readReturn_apply]
  cases leads (fun kind => kind != .newline && kind != .dedent) ts with
  | true => rfl
  | false => rfl

/-- Both parsers read corresponding return statements. -/
theorem abreast_readReturn (hn : n ≤ limit + 1) (hn' : n' ≤ limit' + 1) (keyword : Token) :
    P.Abreast d n n' 0 (Stmt.move g) (P.inLine d) (P.atLine d)
      (Parser.ofReader (readReturn limit keyword))
      (Parser.ofReader (readReturn limit' (g keyword))) := by
  rintro ⟨ts, es⟩ ⟨us, es'⟩ hs hs' hstate
  rw [ofReader_readReturn, ofReader_readReturn, leads_of_head P.isMove (P.agree hstate)]
  cases leads (fun kind => kind != .newline && kind != .dedent) ts with
  | false =>
    have hend := P.relaxStart (P.skip (P.relax hstate))
    exact .ok hend (length_dropNewlines_le ts) (length_dropNewlines_le us)
  | true =>
    simp only [if_true, ofReader_bind]
    exact ((abreast_anyExpr hn hn').bind (l := 0) fun value =>
      abreast_endLine (Stmt.return keyword (some value))) ⟨ts, es⟩ ⟨us, es'⟩ hs hs' hstate

/-! ## The recursion -/

/-- What follows the first token of a statement. -/
theorem outcome_behind {t : Token} {ts us : List Token} {es es' : List SyntaxError}
    {form form' : Parser Stmt}
    (hform : P.Abreast d n n' 0 (Stmt.move g) (P.inLine d) (P.atLine d) form form')
    (hs : ts.length < n) (hs' : us.length < n')
    (hstate : P.inLine d ⟨t :: ts, es⟩ ⟨g t :: us, es'⟩) (ht : t.kind.isStructural = false) :
    P.Outcome d (t :: ts).length (g t :: us).length 1 (Stmt.move g) (P.atLine d)
      (form ⟨ts, es⟩) (form' ⟨us, es'⟩) := by
  have houtcome := hform ⟨ts, es⟩ ⟨us, es'⟩ hs hs' (P.take hstate ht)
  simp only [List.length_cons]
  exact houtcome.mono (by simp only; omega) (by simp only; omega) (by simp only; omega)
    (by simp only; omega) fun _ _ h => h

/-- A statement has a token more than the statements that are nested in it. -/
theorem abreast_readForm
    (hstatement : ∀ d, P.Abreast d n n' 1 (Stmt.move g) (P.atStart d) (P.atLine d) statement
      statement')
    (hn : n ≤ limit) (hn' : n' ≤ limit') :
    P.Abreast d (n + 1) (n' + 1) 1 (Stmt.move g) (P.atStart d) (P.atLine d)
      (readForm limit statement) (readForm limit' statement') := by
  have hexpression : P.Abreast d (n + 1) (n' + 1) 1 (Stmt.move g) (P.inLine d) (P.atLine d)
      (Parser.ofReader (readExpression limit)) (Parser.ofReader (readExpression limit')) :=
    abreast_readExpression (by omega) (by omega)
  -- A compound statement ends inside a line: behind a dedent.
  have hcompound {form form' : Parser Stmt}
      (h : P.Abreast d (n + 1) (n' + 1) 0 (Stmt.move g) (P.inLine d) (P.inLine d) form form') :
      P.Abreast d (n + 1) (n' + 1) 0 (Stmt.move g) (P.inLine d) (P.atLine d) form form' :=
    h.weaken (Nat.le_refl _) fun _ _ => P.relax
  rintro ⟨ts, es⟩ ⟨us, es'⟩ hs hs' hstate
  cases ts with
  | nil =>
    obtain rfl : us = [] := by simpa using P.agreeStart hstate
    exact hexpression ⟨[], es⟩ ⟨[], es'⟩ hs hs' (P.start hstate rfl)
  | cons t ts =>
    obtain ⟨us, rfl⟩ := List.head?_eq_some_iff.mp (P.agreeStart hstate)
    have hts : ts.length < n + 1 := Nat.lt_of_succ_lt hs
    have hus : us.length < n' + 1 := Nat.lt_of_succ_lt hs'
    by_cases hindent : t.kind = .indent
    · have hblock := (abreast_readBlock hstatement hn hn' (d := d)).from fun _ _ => P.relaxStart
      have hnested : P.Abreast d (n + 1) (n' + 1) 1 (Stmt.move g) (P.atStart d) (P.inLine d)
          (Stmt.block <$> readBlock limit statement)
          (Stmt.block <$> readBlock limit' statement') := by
        rw [map_eq_pure_bind, map_eq_pure_bind]
        exact hblock.bind (l := 0) fun body => abreast_pure (Stmt.block body)
      simp only [readForm, P.isMove.kind, hindent]
      exact (hnested ⟨t :: ts, es⟩ ⟨g t :: us, es'⟩ hs hs' hstate).mono (Nat.le_refl _)
        (Nat.le_refl _) (Nat.le_refl _) (Nat.le_refl _) fun _ _ => P.relax
    · have hline : P.inLine d ⟨t :: ts, es⟩ ⟨g t :: us, es'⟩ :=
        P.start hstate (by simpa using hindent)
      have hother := hexpression ⟨t :: ts, es⟩ ⟨g t :: us, es'⟩ hs hs' hline
      simp only [readForm, P.isMove.kind, List.drop_succ_cons, List.drop_zero]
      split
      next hkind =>
        exact outcome_behind (hcompound (abreast_readBranch hstatement hn hn')) hts hus hline
          (by rw [hkind]; rfl)
      next hkind =>
        exact outcome_behind (hcompound (abreast_readLoop hstatement hn hn')) hts hus hline
          (by rw [hkind]; rfl)
      next hkind =>
        exact outcome_behind (hcompound (abreast_readFor hstatement hn hn')) hts hus hline
          (by rw [hkind]; rfl)
      next hkind =>
        exact outcome_behind (hcompound (abreast_readDefinition hstatement hn hn')) hts hus hline
          (by rw [hkind]; rfl)
      next hkind =>
        exact outcome_behind (abreast_readReturn (by omega) (by omega) t) hts hus hline
          (by rw [hkind]; rfl)
      next hkind =>
        exact outcome_behind (abreast_readPrint (by omega) (by omega) t) hts hus hline
          (by rw [hkind]; rfl)
      next hkind => exact absurd hkind hindent
      next hkind =>
        have htext : t.kind.isStructural = false := by rw [hkind]; rfl
        have hsign : us.head?.any (·.kind == .symbol .equal) =
            ts.head?.any (·.kind == .symbol .equal) :=
          leads_of_head P.isMove (P.agree (P.take hline htext)) (· == .symbol .equal)
        rw [hsign]
        split
        · exact outcome_behind (abreast_readAssign (by omega) (by omega) t) hts hus hline htext
        · exact hother
      next => exact hother

/-- The reader of statements with any answer at the limit of the depth. -/
def readOver (atLimit : Parser Stmt) : Nat → Parser Stmt
  | 0 => atLimit
  | limit + 1 => readForm limit (readOver atLimit limit)

/-- The parser of statements is the one that fails at its limit. -/
theorem readOver_fail (limit : Nat) :
    readOver (Parser.ofReader (Reader.fail .expression)) limit = read limit := by
  induction limit with
  | zero => rfl
  | succ limit ih => rw [readOver, ih, read]

/-- Below the limit of the depth, its answer does not matter. -/
theorem abreast_readOver (atLimit atLimit' : Parser Stmt) (limit limit' d : Nat) :
    P.Abreast d limit limit' 1 (Stmt.move g) (P.atStart d) (P.atLine d) (readOver atLimit limit)
      (readOver atLimit' limit') := by
  induction limit generalizing limit' d with
  | zero => exact fun s s' hs => absurd hs (Nat.not_lt_zero _)
  | succ limit ih =>
    cases limit' with
    | zero => exact fun s s' _ hs' => absurd hs' (Nat.not_lt_zero _)
    | succ limit' =>
      exact abreast_readForm (fun d => ih limit' d) (Nat.le_refl _) (Nat.le_refl _)

/-- Two runs of the parser that keep pace from the start of a program reach its end together. -/
theorem readProgram_abreast (atLimit atLimit' : Parser Stmt) {s s' : Parsing}
    (hlimit : s.rest.length < limit) (hlimit' : s'.rest.length < limit')
    (hstate : P.atLine d s s') :
    ∃ program es es',
      readSequence limit (fun _ => false) (readOver atLimit limit) s = .ok program ⟨[], es⟩ ∧
      readSequence limit' (fun _ => false) (readOver atLimit' limit') s' =
        .ok (moveEach g program) ⟨[], es'⟩ ∧
      P.atStart d ⟨[], es⟩ ⟨[], es'⟩ := by
  obtain ⟨program, ⟨ts, es⟩, ⟨us, es'⟩, hrun, hrun', hstart, hstopped, -⟩ :=
    readSequence_abreast (abreast_readOver atLimit atLimit' limit limit' d) (fun _ => false)
      (Nat.le_succ _) (Nat.le_succ _) hlimit hlimit' hstate
  obtain rfl : ts = [] := by
    cases ts with
    | nil => rfl
    | cons t ts => simp [Stopped] at hstopped
  obtain rfl : us = [] := by simpa using P.agreeStart hstart
  exact ⟨program, es, es', hrun, hrun', hstart⟩

end Offside.Stmt
