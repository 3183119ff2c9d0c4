import Offside.Proofs.StmtGrammar

/-!
# Recording errors

A parser that recovers from errors goes on behind them and only ever adds to the recorded ones. So
if there are no more errors at the end than at the start, there were none in between, and what a
parser found without an error was found part by part without one.
-/

namespace Offside

namespace Parser

variable {α β : Type}

/-- The errors recorded at the end of a parser, whether it fails or not. -/
def errorsAfter : EStateM.Result SyntaxError Parsing α → List SyntaxError
  | .ok _ s => s.errors
  | .error _ s => s.errors

/-- A parser never takes back an error. -/
def Grows (p : Parser α) : Prop := ∀ s, s.errors <:+ errorsAfter (p s)

/-- A parser that records no error finds exactly what a relation describes, as long as there are
fewer than `n` tokens. -/
def Finds (p : Parser α) (n : Nat) (D : α → List Token → List Token → Prop) : Prop :=
  ∀ ⦃ts : List Token⦄, ts.length < n → ∀ errors a rest,
    p ⟨ts, errors⟩ = .ok a ⟨rest, errors⟩ ↔ D a ts rest

/-- Reading the state passes it on. -/
theorem get_bind (k : Parsing → Parser α) (s : Parsing) : (get >>= k) s = k s s := rfl

/-- Returning reports nothing. -/
theorem Grows.pure (a : α) : Grows (Pure.pure a) := fun _ => List.suffix_refl _

/-- Reading reports nothing. -/
theorem Grows.ofReader (r : Reader α) : Grows (Parser.ofReader r) := by
  intro s
  unfold Parser.ofReader
  cases r s.rest with
  | ok a rest => exact List.suffix_refl _
  | error e rest => exact List.suffix_refl _

/-- A sequence takes back no report if its steps do not. -/
theorem Grows.bind {p : Parser α} {k : α → Parser β} (hp : Grows p) (hk : ∀ a, Grows (k a)) :
    Grows (p >>= k) := by
  intro s
  have h := hp s
  simp only [Bind.bind, EStateM.bind]
  cases hrun : p s with
  | error e s' =>
    rw [hrun] at h
    exact h
  | ok a s' =>
    rw [hrun] at h
    have h' := hk a s'
    simp only
    cases hrun' : k a s' with
    | ok b s'' =>
      rw [hrun'] at h'
      exact h.trans h'
    | error e s'' =>
      rw [hrun'] at h'
      exact h.trans h'

/-- What succeeds keeps the reports before it. -/
theorem Grows.of_ok {p : Parser α} (hp : Grows p) {s s' : Parsing} {a : α}
    (h : p s = .ok a s') : s.errors <:+ s'.errors := by
  have hgrows := hp s
  rw [h] at hgrows
  exact hgrows

/-- What fails keeps the reports before it. -/
theorem Grows.of_error {p : Parser α} (hp : Grows p) {s s' : Parsing} {e : SyntaxError}
    (h : p s = .error e s') : s.errors <:+ s'.errors := by
  have hgrows := hp s
  rw [h] at hgrows
  exact hgrows

variable {ts rest : List Token} {errors : List SyntaxError}

/-- If two parsers one after the other record no error, neither of them does. -/
theorem bind_eq_clean {p : Parser α} {k : α → Parser β} (hp : Grows p) (hk : ∀ a, Grows (k a))
    {b : β} :
    (p >>= k) ⟨ts, errors⟩ = .ok b ⟨rest, errors⟩ ↔
      ∃ a mid, p ⟨ts, errors⟩ = .ok a ⟨mid, errors⟩ ∧ k a ⟨mid, errors⟩ = .ok b ⟨rest, errors⟩ := by
  rw [bind_eq_ok]
  constructor
  · rintro ⟨a, ⟨mid, errors'⟩, hrun, hrest⟩
    have heq : errors = errors' := ((hp.of_ok hrun).eq_of_length_le ((hk a).of_ok hrest).length_le)
    subst heq
    exact ⟨a, mid, hrun, hrest⟩
  · rintro ⟨a, mid, hrun, hrest⟩
    exact ⟨a, ⟨mid, errors⟩, hrun, hrest⟩

/-- A lifted reader succeeds exactly when the reader does. -/
theorem ofReader_eq_ok {r : Reader α} {a : α} :
    Parser.ofReader r ⟨ts, errors⟩ = .ok a ⟨rest, errors⟩ ↔ r ts = .ok a rest := by
  unfold Parser.ofReader
  cases r ts with
  | ok a' rest' => simp
  | error e rest' => simp

/-- A reader in front of a parser. -/
theorem reader_bind_eq_clean {r : Reader α} {k : α → Parser β} {b : β} :
    (Parser.ofReader r >>= k) ⟨ts, errors⟩ = .ok b ⟨rest, errors⟩ ↔
      ∃ a mid, r ts = .ok a mid ∧ k a ⟨mid, errors⟩ = .ok b ⟨rest, errors⟩ := by
  rw [bind_eq_ok]
  constructor
  · rintro ⟨a, ⟨mid, errors'⟩, hrun, hrest⟩
    unfold Parser.ofReader at hrun
    cases hr : r ts with
    | ok a' rest' =>
      rw [hr] at hrun
      cases hrun
      exact ⟨a, mid, rfl, hrest⟩
    | error e rest' =>
      rw [hr] at hrun
      cases hrun
  · rintro ⟨a, mid, hrun, hrest⟩
    exact ⟨a, ⟨mid, errors⟩, ofReader_eq_ok.mpr hrun, hrest⟩

end Parser

namespace Stmt

open Offside.Parser Reader

variable {n : Nat} {statement : Parser Stmt} {ts rest : List Token} {errors : List SyntaxError}

/-- Skipping leaves the stream without its leading newlines. -/
theorem skipNewlines_eq_ok {u : Unit} :
    skipNewlines ts = .ok u rest ↔ rest = dropNewlines ts := by
  simp [skipNewlines, dropNewlines, eq_comm]

/-! ## Errors are never taken back -/

/-- Recovery takes back no report. -/
theorem grows_recover (hgrows : statement.Grows) : (recover statement).Grows := by
  intro s
  unfold recover
  cases hrun : statement s with
  | ok stmt s' => exact hgrows.of_ok hrun
  | error e s' => exact (hgrows.of_error hrun).trans (List.suffix_cons _ _)

/-- The next statement is read behind all newlines, unless the stream stops there. -/
theorem readNext_apply (stop : Kind → Bool) (statement : Parser Stmt) (ts : List Token)
    (errors : List SyntaxError) :
    readNext stop statement ⟨ts, errors⟩ =
      match dropNewlines ts with
      | [] => .ok none ⟨[], errors⟩
      | t :: rest =>
        if stop t.kind then .ok none ⟨t :: rest, errors⟩
        else (recover statement >>= fun found => pure (some found)) ⟨t :: rest, errors⟩ := by
  change ((do
    match (← get).rest with
    | [] => return none
    | t :: _ => if stop t.kind then return none else return some (← recover statement) :
    Parser (Option (Option Stmt))) ⟨dropNewlines ts, errors⟩) = _
  rw [Parser.get_bind]
  cases dropNewlines ts with
  | nil => rfl
  | cons t rest =>
    by_cases hstop : stop t.kind = true
    · simp only [hstop, if_true]
      rfl
    · simp only [hstop, Bool.false_eq_true, if_false]

/-- Reading the next statement takes back no report. -/
theorem grows_readNext (stop : Kind → Bool) (hgrows : statement.Grows) :
    (readNext stop statement).Grows := by
  rintro ⟨ts, errors⟩
  rw [readNext_apply]
  split
  · exact List.suffix_refl _
  next t rest _ =>
    split
    · exact List.suffix_refl _
    · exact (grows_recover hgrows).bind (fun found => Grows.pure (some found)) ⟨t :: rest, errors⟩

/-- Collecting items takes back no report. -/
theorem grows_collect {α : Type} {action : Parser (Option α)} (hgrows : action.Grows)
    (done : List α) (limit : Nat) : Grows (collect action done limit) := by
  induction limit generalizing done with
  | zero => exact Grows.pure _
  | succ limit ih =>
    refine hgrows.bind fun found => ?_
    cases found with
    | none => exact Grows.pure _
    | some a => exact ih _

/-- Reading a sequence of statements takes back no report. -/
theorem grows_readSequence (stop : Kind → Bool) (limit : Nat) (hgrows : statement.Grows) :
    (readSequence limit stop statement).Grows :=
  (grows_collect (grows_readNext stop hgrows) [] limit).bind fun _ => Grows.pure _

/-- Reading a block takes back no report. -/
theorem grows_readBlock (limit : Nat) (hgrows : statement.Grows) :
    (readBlock limit statement).Grows :=
  (Grows.ofReader _).bind fun _ => (Grows.ofReader _).bind fun _ =>
    (grows_readSequence _ limit hgrows).bind fun _ => (Grows.ofReader _).bind fun _ => Grows.pure _

/-- Reading the body of a header takes back no report. -/
theorem grows_readBody (limit : Nat) (hgrows : statement.Grows) (header : Header) :
    (readBody limit statement header).Grows :=
  (Grows.ofReader _).bind fun _ => (Grows.ofReader _).bind fun _ => grows_readBlock limit hgrows

/-- Reading an alternative takes back no report, by induction on the clauses left. -/
theorem grows_readAlternative (limit : Nat) (hgrows : statement.Grows) (count : Nat) :
    (readAlternative limit statement count).Grows := by
  induction count with
  | zero => exact Grows.pure _
  | succ count ih =>
    rw [readAlternative]
    refine (Grows.ofReader _).bind fun elif => ?_
    split
    · exact (Grows.ofReader _).bind fun _ => (grows_readBody limit hgrows _).bind fun _ =>
        ih.bind fun _ => Grows.pure _
    · refine (Grows.ofReader _).bind fun else_ => ?_
      split
      · exact (grows_readBody limit hgrows _).bind fun _ => Grows.pure _
      · exact Grows.pure _

/-- Reading a conditional takes back no report. -/
theorem grows_readBranch (limit : Nat) (hgrows : statement.Grows) :
    (readBranch limit statement).Grows :=
  (Grows.ofReader _).bind fun _ => (grows_readBody limit hgrows _).bind fun _ =>
    (grows_readAlternative limit hgrows limit).bind fun _ => Grows.pure _

/-- Reading a while loop takes back no report. -/
theorem grows_readLoop (limit : Nat) (hgrows : statement.Grows) :
    (readLoop limit statement).Grows :=
  (Grows.ofReader _).bind fun _ => (grows_readBody limit hgrows _).bind fun _ => Grows.pure _

/-- Reading a for loop takes back no report. -/
theorem grows_readFor (limit : Nat) (hgrows : statement.Grows) :
    (readFor limit statement).Grows := by
  refine (Grows.ofReader _).bind fun _ => (Grows.ofReader _).bind fun _ => ?_
  refine (Grows.ofReader _).bind fun range => ?_
  cases range with
  | none =>
    exact (Grows.ofReader _).bind fun _ => (grows_readBody limit hgrows _).bind fun _ =>
      Grows.pure _
  | some _ =>
    exact (Grows.ofReader _).bind fun _ => (grows_readBody limit hgrows _).bind fun _ =>
      Grows.pure _

/-- Reading a function definition takes back no report. -/
theorem grows_readDefinition (limit : Nat) (hgrows : statement.Grows) :
    (readDefinition limit statement).Grows :=
  (Grows.ofReader _).bind fun _ => (Grows.ofReader _).bind fun _ =>
    (grows_readBody limit hgrows _).bind fun _ => Grows.pure _

/-- Reading a statement of any form takes back no report. -/
theorem grows_readForm (limit : Nat) (hgrows : statement.Grows) :
    (readForm limit statement).Grows := by
  rintro ⟨_ | ⟨t, ts⟩, errors⟩
  · exact Grows.ofReader _ ⟨[], errors⟩
  · simp only [readForm, List.drop_succ_cons, List.drop_zero]
    generalize t.kind = kind
    split
    · exact grows_readBranch limit hgrows ⟨ts, errors⟩
    · exact grows_readLoop limit hgrows ⟨ts, errors⟩
    · exact grows_readFor limit hgrows ⟨ts, errors⟩
    · exact grows_readDefinition limit hgrows ⟨ts, errors⟩
    · exact Grows.ofReader _ ⟨ts, errors⟩
    · exact Grows.ofReader _ ⟨ts, errors⟩
    · exact ((grows_readBlock limit hgrows).bind fun body => Grows.pure (Stmt.block body))
        ⟨t :: ts, errors⟩
    · split
      · exact Grows.ofReader _ ⟨ts, errors⟩
      · exact Grows.ofReader _ ⟨t :: ts, errors⟩
    · exact Grows.ofReader _ ⟨t :: ts, errors⟩

/-- No parser of statements takes back a report, by induction on its depth. -/
theorem grows_read (limit : Nat) : (read limit).Grows := by
  induction limit with
  | zero => exact Grows.ofReader _
  | succ limit ih => exact grows_readForm limit ih

end Stmt

end Offside
