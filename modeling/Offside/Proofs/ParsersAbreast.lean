import Offside.Proofs.ExprAbreast

/-!
# Parsers side by side

Two runs of the parser keep pace with each other: inside a line they see the same tokens up to
positions, where a statement may start one of them may first have to skip more line ends than the
other, and behind an error both resume at corresponding places. What keeping pace has to mean is
listed once, for every depth of blocks; that statements and programs keep pace follows form by form.
-/

namespace Offside

open Stmt

/-- Two runs of the parser that keep pace, some number of blocks deep. -/
structure Pace (g : Token → Token) where
  /-- Inside a line. -/
  inLine : Nat → Parsing → Parsing → Prop
  /-- Where a statement may start, behind all line ends. -/
  atStart : Nat → Parsing → Parsing → Prop
  /-- Where further line ends may follow. -/
  atLine : Nat → Parsing → Parsing → Prop
  /-- At any place on the way. -/
  passing : Parsing → Parsing → Prop
  isMove : IsMove g
  agree {d : Nat} {s s' : Parsing} : inLine d s s' → s'.rest.head? = s.rest.head?.map g
  agreeStart {d : Nat} {s s' : Parsing} : atStart d s s' → s'.rest.head? = s.rest.head?.map g
  take {d : Nat} {t u : Token} {ts us : List Token} {es es' : List SyntaxError} :
    inLine d ⟨t :: ts, es⟩ ⟨u :: us, es'⟩ → t.kind.isStructural = false →
      inLine d ⟨ts, es⟩ ⟨us, es'⟩
  line {d : Nat} {t u : Token} {ts us : List Token} {es es' : List SyntaxError} :
    inLine d ⟨t :: ts, es⟩ ⟨u :: us, es'⟩ → t.kind = .newline → atLine d ⟨ts, es⟩ ⟨us, es'⟩
  skip {d : Nat} {ts us : List Token} {es es' : List SyntaxError} :
    atLine d ⟨ts, es⟩ ⟨us, es'⟩ → atStart d ⟨dropNewlines ts, es⟩ ⟨dropNewlines us, es'⟩
  passes {d : Nat} {s s' : Parsing} : inLine d s s' → passing s s'
  passesStart {d : Nat} {s s' : Parsing} : atStart d s s' → passing s s'
  relax {d : Nat} {s s' : Parsing} : inLine d s s' → atLine d s s'
  relaxStart {d : Nat} {s s' : Parsing} : atStart d s s' → atLine d s s'
  start {d : Nat} {s s' : Parsing} : atStart d s s' → leads (· == .indent) s.rest = false →
    inLine d s s'
  opens {d : Nat} {t u : Token} {ts us : List Token} {es es' : List SyntaxError} :
    atStart d ⟨t :: ts, es⟩ ⟨u :: us, es'⟩ → t.kind = .indent →
      atLine (d + 1) ⟨ts, es⟩ ⟨us, es'⟩
  closes {d : Nat} {t u : Token} {ts us : List Token} {es es' : List SyntaxError} :
    atStart (d + 1) ⟨t :: ts, es⟩ ⟨u :: us, es'⟩ → t.kind = .dedent →
      inLine d ⟨ts, es⟩ ⟨us, es'⟩
  record {d : Nat} {s s' : Parsing} {e : SyntaxError} : inLine d s s' → e.StopsAt s.rest →
    atLine d ⟨resume s.rest, e :: s.errors⟩ ⟨resume s'.rest, e.move g :: s'.errors⟩
  /-- A block that is open at the end of the input is an error and is left. -/
  lost {d : Nat} {es es' : List SyntaxError} : atStart (d + 1) ⟨[], es⟩ ⟨[], es'⟩ →
    atLine d ⟨[], ⟨.expected .blockEnd, none⟩ :: es⟩ ⟨[], ⟨.expected .blockEnd, none⟩ :: es'⟩

namespace Pace

variable {g : Token → Token} (P : Pace g) {d : Nat}

/-- The streams inside a line, with the errors recorded so far. -/
def lines (d : Nat) (es es' : List SyntaxError) : Lines g where
  inLine ts us := P.inLine d ⟨ts, es⟩ ⟨us, es'⟩
  isMove := P.isMove
  agree h := P.agree h
  take h ht := P.take h ht

/-- How two parsers end alike that were given `m` and `m'` tokens, `d` blocks deep. A success takes
at least `k` of them and leads to states that are related by `Q`; after a failure the runs keep pace
again once it is recorded. -/
inductive Outcome {α β : Type} (d m m' k : Nat) (f : α → β) (Q : Parsing → Parsing → Prop) :
    EStateM.Result SyntaxError Parsing α → EStateM.Result SyntaxError Parsing β → Prop
  | ok {a : α} {s s' : Parsing} : Q s s' → s.rest.length + k ≤ m → s'.rest.length + k ≤ m' →
    Outcome d m m' k f Q (.ok a s) (.ok (f a) s')
  | error {e e' : SyntaxError} {s s' : Parsing} : P.passing s s' →
    P.atLine d ⟨resume s.rest, e :: s.errors⟩ ⟨resume s'.rest, e' :: s'.errors⟩ →
      s.rest.length ≤ m → s'.rest.length ≤ m' → Outcome d m m' k f Q (.error e s) (.error e' s')

/-- Two parsers that end alike on fewer than `n` and `n'` tokens, from states that are related by
`R` to states that are related by `Q`. -/
def Abreast {α β : Type} (d n n' k : Nat) (f : α → β) (R Q : Parsing → Parsing → Prop)
    (p : Parser α) (p' : Parser β) : Prop :=
  ∀ s s', s.rest.length < n → s'.rest.length < n' → R s s' →
    P.Outcome d s.rest.length s'.rest.length k f Q (p s) (p' s')

variable {P} {α β γ δ : Type} {f : α → β} {h : γ → δ} {n n' m m' k l : Nat}
  {R M Q : Parsing → Parsing → Prop}

/-- An outcome holds for larger bounds and a weaker ending. -/
theorem Outcome.mono {x : EStateM.Result SyntaxError Parsing α}
    {x' : EStateM.Result SyntaxError Parsing β} (hx : P.Outcome d n n' k f M x x') (hn : n ≤ m)
    (hn' : n' ≤ m') (hk : l + n ≤ k + m) (hk' : l + n' ≤ k + m') (hQ : ∀ s s', M s s' → Q s s') :
    P.Outcome d m m' l f Q x x' := by
  cases hx with
  | ok hstate hlength hlength' => exact .ok (hQ _ _ hstate) (by omega) (by omega)
  | error hplace hrecorded hlength hlength' =>
    exact .error hplace hrecorded (by omega) (by omega)

/-- Parsers abreast stay so for smaller budgets. -/
theorem Abreast.mono {p : Parser α} {p' : Parser β} (hp : P.Abreast d n n' k f R Q p p')
    (hm : m ≤ n) (hm' : m' ≤ n') (hl : l ≤ k) : P.Abreast d m m' l f R Q p p' := by
  intro s s' hs hs' hstate
  exact (hp s s' (by omega) (by omega) hstate).mono (by omega) (by omega) (by omega) (by omega)
    fun _ _ h => h

/-- Weaker states behind the parsers, and less said about the tokens that they take. -/
theorem Abreast.weaken {p : Parser α} {p' : Parser β} (hp : P.Abreast d n n' k f R M p p')
    (hl : l ≤ k) (hQ : ∀ s s', M s s' → Q s s') : P.Abreast d n n' l f R Q p p' := by
  intro s s' hs hs' hstate
  exact (hp s s' hs hs' hstate).mono (by omega) (by omega) (by omega) (by omega) hQ

/-- Parsers abreast stay so from a stronger start. -/
theorem Abreast.from {p : Parser α} {p' : Parser β} (hp : P.Abreast d n n' k f M Q p p')
    (hR : ∀ s s', R s s' → M s s') : P.Abreast d n n' k f R Q p p' :=
  fun s s' hs hs' hstate => hp s s' hs hs' (hR s s' hstate)

/-- Returning corresponding results keeps abreast. -/
theorem abreast_pure (a : α) : P.Abreast d n n' 0 f R R (pure a) (pure (f a)) :=
  fun _ _ _ _ hstate => .ok hstate (Nat.le_refl _) (Nat.le_refl _)

/-- Parsers abreast go on abreast. -/
theorem Abreast.bind {p : Parser α} {p' : Parser β} {q : α → Parser γ} {q' : β → Parser δ}
    (hp : P.Abreast d n n' k f R M p p')
    (hq : ∀ a, P.Abreast d (n - k) (n' - k) l h M Q (q a) (q' (f a))) :
    P.Abreast d n n' (k + l) h R Q (p >>= q) (p' >>= q') := by
  intro s s' hs hs' hstate
  have hfirst := hp s s' hs hs' hstate
  simp only [Bind.bind, EStateM.bind]
  generalize p s = x at hfirst
  generalize p' s' = x' at hfirst
  cases hfirst with
  | @ok a mid mid' hmid hlength hlength' =>
    have hsecond := hq a mid mid' (by omega) (by omega) hmid
    exact hsecond.mono (by omega) (by omega) (by omega) (by omega) fun _ _ h => h
  | error hplace hrecorded hlength hlength' => exact .error hplace hrecorded hlength hlength'

/-! ## Readers as parsers -/

/-- Lifting a reader commutes with sequencing. -/
theorem ofReader_bind (r : Reader α) (k : α → Reader β) :
    Parser.ofReader (r >>= k) = Parser.ofReader r >>= fun a => Parser.ofReader (k a) := by
  funext s
  simp only [Parser.ofReader, Bind.bind, EStateM.bind]
  cases r s.rest with
  | ok a rest => rfl
  | error e rest => rfl

/-- Readers that go side by side inside a line. -/
theorem Abreast.ofReader {r : Reader α} {r' : Reader β}
    (hr : ∀ es es', (P.lines d es es').Abreast n n' k f r r') :
    P.Abreast d n n' k f (P.inLine d) (P.inLine d) (Parser.ofReader r) (Parser.ofReader r') := by
  rintro ⟨ts, es⟩ ⟨us, es'⟩ hs hs' hstate
  have houtcome := hr es es' ts us hs hs' hstate
  simp only [Parser.ofReader]
  generalize r ts = x at houtcome
  generalize r' us = x' at houtcome
  cases houtcome with
  | ok hrest hlength hlength' => exact .ok hrest hlength hlength'
  | @error e rest rest' hrest hlength hlength' hstops =>
    have hstate' : P.inLine d ⟨rest, es⟩ ⟨rest', es'⟩ := hrest
    exact .error (P.passes hstate') (P.record hstate' hstops) hlength hlength'

/-- A failure inside a line is recorded and skipped. -/
theorem outcome_fail {s s' : Parsing} (hstate : P.inLine d s s') {what : Expectation}
    (hwhat : what ≠ .blockEnd) :
    P.Outcome d s.rest.length s'.rest.length k f Q (.error ⟨.expected what, s.rest.head?⟩ s)
      (.error ⟨.expected what, s'.rest.head?⟩ s') := by
  have hrecorded := P.record (e := ⟨.expected what, s.rest.head?⟩) hstate ⟨hwhat, rfl⟩
  rw [SyntaxError.move, ← P.agree hstate] at hrecorded
  exact .error (P.passes hstate) hrecorded (Nat.le_refl _) (Nat.le_refl _)

/-- A parser takes the token it expects. -/
theorem ofReader_expect_cons {kind : Kind} {what : Expectation} {t : Token} {ts : List Token}
    {es : List SyntaxError} (h : t.kind = kind) :
    Parser.ofReader (Reader.expect kind what) ⟨t :: ts, es⟩ = .ok t ⟨ts, es⟩ := by
  simp [Parser.ofReader, Reader.expect, h]

/-- A parser that does not see the expected token fails at the next one. -/
theorem ofReader_expect_fail {kind : Kind} {what : Expectation} {s : Parsing}
    (h : leads (· == kind) s.rest = false) :
    Parser.ofReader (Reader.expect kind what) s = .error ⟨.expected what, s.rest.head?⟩ s := by
  obtain ⟨_ | ⟨t, ts⟩, es⟩ := s
  · rfl
  · have hkind : t.kind ≠ kind := by simpa using h
    simp [Parser.ofReader, Reader.expect, Reader.fail, hkind]

/-- The head of the first stream, and of the second. -/
theorem uncons {t : Token} {ts : List Token} {es : List SyntaxError} {s' : Parsing}
    (h : s'.rest.head? = (⟨t :: ts, es⟩ : Parsing).rest.head?.map g) :
    ∃ us, s' = ⟨g t :: us, s'.errors⟩ := by
  obtain ⟨rest', es'⟩ := s'
  obtain ⟨us, rfl⟩ := List.head?_eq_some_iff.mp h
  exact ⟨us, rfl⟩

/-- A token of a given kind, or a failure in front of another one. -/
theorem abreast_expect {kind : Kind} {what : Expectation} (hwhat : what ≠ .blockEnd)
    (hagree : ∀ s s', R s s' → s'.rest.head? = s.rest.head?.map g)
    (hother : ∀ s s', R s s' → leads (· == kind) s.rest = false → P.inLine d s s')
    (htake : ∀ t u ts us es es', R ⟨t :: ts, es⟩ ⟨u :: us, es'⟩ → t.kind = kind →
      Q ⟨ts, es⟩ ⟨us, es'⟩) :
    P.Abreast d n n' 1 g R Q (Parser.ofReader (Reader.expect kind what))
      (Parser.ofReader (Reader.expect kind what)) := by
  intro s s' _ _ hstate
  have hhead := hagree s s' hstate
  have hleads := leads_of_head P.isMove hhead (· == kind)
  cases hkind : leads (· == kind) s.rest with
  | false =>
    rw [ofReader_expect_fail hkind, ofReader_expect_fail (hleads.trans hkind)]
    exact outcome_fail (hother s s' hstate hkind) hwhat
  | true =>
    obtain ⟨_ | ⟨t, ts⟩, es⟩ := s
    · cases hkind
    · obtain ⟨us, hs'⟩ := uncons hhead
      rw [hs'] at hstate ⊢
      have ht : t.kind = kind := by simpa using hkind
      rw [ofReader_expect_cons ht, ofReader_expect_cons ((P.isMove.kind t).trans ht)]
      exact .ok (htake t (g t) ts us es s'.errors hstate ht) (Nat.le_refl _) (Nat.le_refl _)

/-- Expecting the end of a line keeps abreast and starts a line. -/
theorem abreast_expectLine {what : Expectation} (hwhat : what ≠ .blockEnd) :
    P.Abreast d n n' 1 g (P.inLine d) (P.atLine d)
      (Parser.ofReader (Reader.expect .newline what))
      (Parser.ofReader (Reader.expect .newline what)) :=
  abreast_expect hwhat (fun _ _ => P.agree) (fun _ _ hstate _ => hstate)
    fun _ _ _ _ _ _ hstate ht => P.line hstate ht

/-- Expecting an indent keeps abreast one level deeper. -/
theorem abreast_expectIndent :
    P.Abreast d n n' 1 g (P.atStart d) (P.atLine (d + 1))
      (Parser.ofReader (Reader.expect .indent .blockStart))
      (Parser.ofReader (Reader.expect .indent .blockStart)) :=
  abreast_expect (by simp) (fun _ _ => P.agreeStart)
    (fun _ _ hstate hother => P.start hstate hother) fun _ _ _ _ _ _ hstate ht => P.opens hstate ht

/-- Skipping newlines keeps abreast at the start of a statement. -/
theorem abreast_skipNewlines :
    P.Abreast d n n' 0 id (P.atLine d) (P.atStart d) (Parser.ofReader Reader.skipNewlines)
      (Parser.ofReader Reader.skipNewlines) := by
  rintro ⟨ts, es⟩ ⟨us, es'⟩ _ _ hstate
  exact .ok (P.skip hstate) (length_dropNewlines_le ts) (length_dropNewlines_le us)

/-- A token that is taken if it is of the given kind, and what follows in either case. -/
theorem Abreast.accept {kind : Kind} (hkind : kind.isStructural = false)
    {q : Option Token → Parser α} {q' : Option Token → Parser β}
    (hnone : P.Abreast d n n' 0 f (P.inLine d) Q (q none) (q' none))
    (hsome : ∀ t, t.kind = kind →
      P.Abreast d n n' 0 f (P.inLine d) Q (q (some t)) (q' (some (g t)))) :
    P.Abreast d n n' 0 f (P.inLine d) Q (Parser.ofReader (Reader.accept kind) >>= q)
      (Parser.ofReader (Reader.accept kind) >>= q') := by
  intro s s' hs hs' hstate
  obtain ⟨_ | ⟨t, ts⟩, es⟩ := s
  · obtain ⟨us, es'⟩ := s'
    obtain rfl : us = [] := by simpa using P.agree hstate
    exact hnone ⟨[], es⟩ ⟨[], es'⟩ hs hs' hstate
  · obtain ⟨us, heq⟩ := uncons (P.agree hstate)
    rw [heq] at hstate hs' ⊢
    simp only [Bind.bind, EStateM.bind, Parser.ofReader, Reader.accept, Reader.acceptIf,
      P.isMove.kind]
    by_cases ht : t.kind = kind
    · have hrest := P.take hstate (ht ▸ hkind)
      simp only [List.length_cons] at hs hs' ⊢
      simp only [ht, beq_self_eq_true, if_true]
      have hsecond :=
        hsome t ht ⟨ts, es⟩ ⟨us, s'.errors⟩ (by simp only; omega) (by simp only; omega) hrest
      exact hsecond.mono (by simp only; omega) (by simp only; omega) (by simp only; omega)
        (by simp only; omega) fun _ _ h => h
    · simp only [beq_eq_false_iff_ne.mpr ht, Bool.false_eq_true, if_false]
      exact hnone ⟨t :: ts, es⟩ ⟨g t :: us, s'.errors⟩ hs hs' hstate

end Pace

end Offside
