import Offside.Proofs.StmtAbreast

/-!
# Parsing ends on every token stream

The parser is a recursion with a limit on its depth and loops with a limit on their rounds. Two runs
of it on the same tokens keep pace whatever their limits and whatever they answer at the limit, as
long as the limits are larger than the number of tokens. So the limits are never felt: the same
recursion without them ends, on every token stream and not only on those that scanning produces. On
the way the tokens that are left are always an end of those that were left before.
-/

namespace Offside

open Stmt

/-- Two runs on the same tokens, of which they have left an end. -/
def Pace.onward (body : List Token) : Pace id where
  inLine _ s s' := s' = s ∧ s.rest <:+ body
  atStart _ s s' := s' = s ∧ s.rest <:+ body
  atLine _ s s' := s' = s ∧ s.rest <:+ body
  passing s s' := s' = s ∧ s.rest <:+ body
  isMove := .id
  agree h := by rw [h.1, Option.map_id_fun, id]
  agreeStart h := by rw [h.1, Option.map_id_fun, id]
  take h _ := by
    obtain ⟨heq, hend⟩ := h
    cases heq
    exact ⟨rfl, (List.suffix_cons _ _).trans hend⟩
  line h _ := by
    obtain ⟨heq, hend⟩ := h
    cases heq
    exact ⟨rfl, (List.suffix_cons _ _).trans hend⟩
  skip h := by
    obtain ⟨heq, hend⟩ := h
    cases heq
    exact ⟨rfl, (List.dropWhile_suffix _).trans hend⟩
  passes h := h
  passesStart h := h
  relax h := h
  relaxStart h := h
  start h _ := h
  opens h _ := by
    obtain ⟨heq, hend⟩ := h
    cases heq
    exact ⟨rfl, (List.suffix_cons _ _).trans hend⟩
  closes h _ := by
    obtain ⟨heq, hend⟩ := h
    cases heq
    exact ⟨rfl, (List.suffix_cons _ _).trans hend⟩
  record h _ := by
    obtain ⟨rfl, hend⟩ := h
    rw [SyntaxError.move_id]
    exact ⟨rfl, (resume_suffix _).trans hend⟩
  lost h := by
    obtain ⟨heq, hend⟩ := h
    cases heq
    exact ⟨rfl, hend⟩

/-- How a reader of a phrase ends that was given some tokens: what it leaves is an end of them, and
it takes at least one if it succeeds. -/
inductive MovesOn {α : Type} (given : List Token) : EStateM.Result SyntaxError Parsing α → Prop
  | ok {a : α} {s : Parsing} : s.rest <:+ given → s.rest.length < given.length →
    MovesOn given (.ok a s)
  | error {e : SyntaxError} {s : Parsing} : s.rest <:+ given → MovesOn given (.error e s)

/-- Two runs on the same tokens end in the same way and move on. -/
theorem Pace.Outcome.same {α : Type} {given : List Token} {d m m' : Nat} {f : α → α}
    (hf : ∀ a, f a = a) {Q : Parsing → Parsing → Prop}
    (hQ : ∀ s s', Q s s' → s' = s ∧ s.rest <:+ given)
    {x x' : EStateM.Result SyntaxError Parsing α}
    (h : (Pace.onward given).Outcome d m m' 1 f Q x x') (hm : m ≤ given.length) :
    x' = x ∧ MovesOn given x := by
  cases h with
  | @ok a s s' hend hlength hlength' =>
    obtain ⟨rfl, hsuffix⟩ := hQ s s' hend
    rw [hf]
    exact ⟨rfl, .ok hsuffix (by omega)⟩
  | error hplace hrecorded _ _ =>
    obtain ⟨rfl, hsuffix⟩ := hplace
    have heq := congrArg Parsing.errors hrecorded.1
    simp only [List.cons.injEq, and_true] at heq
    rw [heq]
    exact ⟨rfl, .error hsuffix⟩

/-! ## Expressions and statements -/

/-- Statements below the limit are read alike whatever the limit, and move on. -/
theorem Stmt.readOver_same (atLimit atLimit' : Parser Stmt) {limit limit' : Nat} {s : Parsing}
    (hlimit : s.rest.length < limit) (hlimit' : s.rest.length < limit') :
    readOver atLimit' limit' s = readOver atLimit limit s ∧
      MovesOn s.rest (readOver atLimit limit s) := by
  have houtcome := abreast_readOver (P := .onward s.rest) atLimit atLimit' limit limit' 0 s s hlimit
    hlimit' ⟨rfl, List.suffix_refl _⟩
  exact houtcome.same Stmt.move_id (fun _ _ h => h) (Nat.le_refl _)

/-- Readers that stay abreast of each other give the same and move on. -/
theorem Expr.ofReader_same {r r' : Reader Expr} {s : Parsing} {n n' : Nat} (hn : s.rest.length < n)
    (hn' : s.rest.length < n')
    (h : ∀ L : Lines id, L.Abreast n n' 1 (Expr.move id) r r') :
    Parser.ofReader r' s = Parser.ofReader r s ∧ MovesOn s.rest (Parser.ofReader r s) := by
  have houtcome := Pace.Abreast.ofReader (P := .onward s.rest) (d := 0) (fun _ _ => h _) s s hn hn'
    ⟨rfl, List.suffix_refl _⟩
  exact houtcome.same Expr.move_id (fun _ _ h => h) (Nat.le_refl _)

/-- Expressions below the limit are read alike whatever happens at it. -/
theorem Expr.readOver_eq_read (atLimit : Reader Expr) {limit limit' : Nat} {s : Parsing}
    (hlimit : s.rest.length < limit) (hlimit' : s.rest.length ≤ limit') :
    Parser.ofReader (readOver atLimit limit) s = Parser.ofReader (read limit') s := by
  have hbelow : Parser.ofReader (readOver atLimit limit) s = Parser.ofReader (read limit) s := by
    rw [← readOver_fail]
    exact (ofReader_same hlimit hlimit fun _ => abreast_readOver _ _ limit limit).1
  rw [hbelow]
  exact (ofReader_same (Nat.lt_succ_of_le hlimit') (Nat.lt_succ_of_lt hlimit) fun _ =>
    abreast_read limit' limit).1

/-! ## Rounds and recovery -/

/-- A round of a sequence never fails. It ends the sequence only where that stops, and otherwise it
takes a token. -/
theorem Stmt.readNext_total (stop : Kind → Bool) {limit : Nat} {s : Parsing}
    (hlimit : s.rest.length < limit) :
    ∃ next s', readNext stop (read limit) s = .ok next s' ∧ s'.rest <:+ s.rest ∧
      (next = none → Stopped stop s') ∧ (next ≠ none → s'.rest.length < s.rest.length) := by
  have hstatement := abreast_readOver (P := .onward s.rest)
    (Parser.ofReader (Reader.fail .expression)) (Parser.ofReader (Reader.fail .expression)) limit
    limit 0
  rw [readOver_fail] at hstatement
  rcases readNext_abreast hstatement stop hlimit hlimit ⟨rfl, List.suffix_refl _⟩ with
    ⟨t, t', hrun, -, ⟨-, hsuffix⟩, hstopped, -⟩ | ⟨found, t, t', hrun, -, ⟨-, hsuffix⟩, hless, -⟩
  · exact ⟨none, t, hrun, hsuffix, fun _ => hstopped, fun h => absurd rfl h⟩
  · exact ⟨some found, t, hrun, hsuffix, fun h => absurd h (by simp), fun _ => hless⟩

/-- Behind an error the parser stops in front of a token only if it has skipped the one before it.
That one was the end of a line, or a statement may start here. -/
theorem Stmt.exists_skipped {ts rest : List Token} {t : Token} (h : resume ts = t :: rest) :
    ∃ front skipped, ts = front ++ skipped :: t :: rest ∧
      (skipped.kind = .newline ∨ resumesAt t.kind = true) := by
  have hafter : ∀ (first : Token) (ts : List Token), resumeAfter first ts = t :: rest →
      ∃ front skipped, first :: ts = front ++ skipped :: t :: rest ∧
        (skipped.kind = .newline ∨ resumesAt t.kind = true) := by
    intro first ts
    induction ts generalizing first with
    | nil => intro h; cases h
    | cons next ts ih =>
      intro h
      rw [resumeAfter] at h
      split at h
      next hstop =>
        cases h
        exact ⟨[], first, rfl, hstop⟩
      next =>
        obtain ⟨front, skipped, heq, hstop⟩ := ih next h
        exact ⟨first :: front, skipped, by rw [heq, List.cons_append], hstop⟩
  cases ts with
  | nil => cases h
  | cons first ts => exact hafter first ts h

/-! ## Whole streams -/

/-- Under any limit above the length the sequence read is the program parsed. -/
theorem readProgram_eq_parse (tokens : List Token) (atLimit : Parser Stmt) {limit : Nat}
    (hlimit : (tokensBeforeEnd tokens).length < limit) :
    readSequence limit (fun _ => false) (Stmt.readOver atLimit limit) ⟨tokensBeforeEnd tokens, []⟩ =
      .ok (parse tokens).program ⟨[], (parse tokens).errors.reverse⟩ := by
  have hstart : (Pace.onward (tokensBeforeEnd tokens)).atLine 0 ⟨tokensBeforeEnd tokens, []⟩
      ⟨tokensBeforeEnd tokens, []⟩ := ⟨rfl, List.suffix_refl _⟩
  obtain ⟨program, es, es', hparse, hrun, ⟨heq, -⟩⟩ := readProgram_abreast
    (Parser.ofReader (Reader.fail .expression)) atLimit (Nat.lt_succ_self _) hlimit hstart
  cases heq
  rw [Stmt.readOver_fail] at hparse
  rw [hrun, parse_eq, hparse]
  simp

/-- What follows the first end of input is not read. -/
theorem parse_append (pre : List Token) (finish : Token) (post : List Token)
    (hpre : ∀ t ∈ pre, t.kind ≠ .endOfInput) (hfinish : finish.kind = .endOfInput) :
    parse (pre ++ finish :: post) = parse (pre ++ [finish]) := by
  have hinside : ∀ t ∈ pre, (t.kind != .endOfInput) = true :=
    fun t ht => bne_iff_ne.mpr (hpre t ht)
  have hnone : pre.find? (·.kind == .endOfInput) = none := by simpa using hpre
  have hbody : tokensBeforeEnd (pre ++ finish :: post) = tokensBeforeEnd (pre ++ [finish]) := by
    simp [tokensBeforeEnd, List.takeWhile_append_of_pos hinside, hfinish]
  have hend : endOf (pre ++ finish :: post) = endOf (pre ++ [finish]) := by
    simp [endOf, hnone, hfinish]
  rw [parse_eq, parse_eq, hbody, hend]

/-- What parsing is on every token stream. -/
structure ParsesTotally (tokens : List Token) : Prop where
  /-- With any limit larger than the number of tokens in front of the end of the input, and whatever
  is answered at the limit, the parser reaches that end and no further, with the same result. -/
  ends (limit : Nat) (atLimit : Parser Stmt) : (tokensBeforeEnd tokens).length < limit →
    readSequence limit (fun _ => false) (Stmt.readOver atLimit limit) ⟨tokensBeforeEnd tokens, []⟩ =
      .ok (parse tokens).program ⟨[], (parse tokens).errors.reverse⟩
  /-- On the way, the reader of expressions does not feel its limit and only moves on. -/
  expression (s : Parsing) (limit limit' : Nat) (atLimit : Reader Expr) :
    s.rest <:+ tokensBeforeEnd tokens → s.rest.length < limit → s.rest.length ≤ limit' →
      Parser.ofReader (Expr.readOver atLimit limit) s = Parser.ofReader (Expr.read limit') s ∧
      MovesOn s.rest (Parser.ofReader (Expr.read limit') s)
  /-- So does the reader of statements. -/
  statement (s : Parsing) (limit limit' : Nat) (atLimit : Parser Stmt) :
    s.rest <:+ tokensBeforeEnd tokens → s.rest.length < limit → s.rest.length < limit' →
      Stmt.readOver atLimit limit s = Stmt.read limit' s ∧ MovesOn s.rest (Stmt.read limit' s)
  /-- Every round of the loop over a program or a block ends it where it stops, or takes a token. -/
  round (s : Parsing) (limit : Nat) (stop : Kind → Bool) :
    s.rest <:+ tokensBeforeEnd tokens → s.rest.length < limit →
      ∃ next s', readNext stop (Stmt.read limit) s = .ok next s' ∧ s'.rest <:+ s.rest ∧
        (next = none → Stopped stop s') ∧ (next ≠ none → s'.rest.length < s.rest.length)
  /-- Recovery that stops in front of a token has skipped the one before it. -/
  recovery (ts : List Token) (t : Token) (rest : List Token) :
    ts <:+ tokensBeforeEnd tokens → resume ts = t :: rest →
      ∃ front skipped, ts = front ++ skipped :: t :: rest ∧
        (skipped.kind = .newline ∨ resumesAt t.kind = true)
  /-- Nothing behind the first end of the input matters. -/
  cutOff (pre : List Token) (finish : Token) (post : List Token) :
    tokens = pre ++ finish :: post → (∀ t ∈ pre, t.kind ≠ .endOfInput) →
      finish.kind = .endOfInput → parse tokens = parse (pre ++ [finish])

/-- Parsing is total on every token stream. -/
theorem parse_total (tokens : List Token) : ParsesTotally tokens where
  ends _ atLimit hlimit := readProgram_eq_parse tokens atLimit hlimit
  expression s limit limit' atLimit _ hlimit hlimit' := by
    refine ⟨Expr.readOver_eq_read atLimit hlimit hlimit', ?_⟩
    exact (Expr.ofReader_same (Nat.lt_succ_of_le hlimit') (Nat.lt_succ_of_le hlimit') fun _ =>
      Expr.abreast_read limit' limit').2
  statement s limit limit' atLimit _ hlimit hlimit' := by
    rw [← Stmt.readOver_fail]
    exact Stmt.readOver_same _ atLimit hlimit' hlimit
  round _ _ stop _ hlimit := Stmt.readNext_total stop hlimit
  recovery _ _ _ _ h := Stmt.exists_skipped h
  cutOff pre finish post heq hpre hfinish := by
    rw [heq]
    exact parse_append pre finish post hpre hfinish

/-- Tokens that no text is scanned to: a block is closed that was never opened, and the input ends
twice. -/
def strayTokens : List Token :=
  [⟨.dedent, "", 1, .point 0⟩, ⟨.symbol .leftParen, "(", 1, ⟨0, 1⟩⟩, ⟨.endOfInput, "", 1, .point 1⟩,
    ⟨.indent, "", 1, .point 1⟩, ⟨.endOfInput, "", 1, .point 1⟩]

/-- Stray tokens in front of the end are skipped, and those behind it are not read. -/
theorem parse_total_strayTokens :
    readSequence 3 (fun _ => false) (Stmt.readOver (pure (.block [])) 3)
        ⟨tokensBeforeEnd strayTokens, []⟩ =
      .ok (parse strayTokens).program ⟨[], (parse strayTokens).errors.reverse⟩ ∧
    parse strayTokens = parse (strayTokens.take 2 ++ [⟨.endOfInput, "", 1, .point 1⟩]) :=
  ⟨(parse_total strayTokens).ends 3 (pure (.block [])) (by decide),
    (parse_total strayTokens).cutOff (strayTokens.take 2) ⟨.endOfInput, "", 1, .point 1⟩
      (strayTokens.drop 3) rfl (by decide) rfl⟩

end Offside
