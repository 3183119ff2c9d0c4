import Offside.Proofs.Fuel
import Offside.Proofs.SinkLimits

/-!
# Rejected sources

A source with a static error leaves no trace in its session. The runs of a session are followed one
after the other, each with the fuel it needs; leaving out the rejected ones gives runs of the same
session again, and these are the only ones of the remaining sources.
-/

namespace Offside

/-- What is seen of one run of a session. -/
structure Ran where
  source : String
  outcome : Outcome
  /-- The bytes that the sink accepted in this run. -/
  output : ByteArray
  /-- The global bindings after the run. -/
  globals : Bindings

/-- Whether the source was executed at all. -/
def Ran.executed (r : Ran) : Bool := r.outcome.status != .staticError

namespace Session

/-- What is seen of a run that leads from one session to another. -/
def ran (s : Session) (source : String) (outcome : Outcome) (t : Session) : Ran :=
  ⟨source, outcome, t.machine.sink.written.extract s.printed t.printed, t.globals⟩

/-- Sources run one after the other, each one to its end. -/
inductive Runs : Session → List Ran → Session → Prop
  | nil (s : Session) : Runs s [] s
  | cons {s t u : Session} {fuel : Nat} {source : String} {outcome : Outcome} {rest : List Ran} :
      s.run fuel source = some (outcome, t) → Runs t rest u →
      Runs s (s.ran source outcome t :: rest) u

variable {s t t' : Session}

/-- A rejected source leaves the session as it is. -/
theorem eq_of_run_rejected {fuel : Nat} {source : String} {outcome : Outcome}
    (h : s.run fuel source = some (outcome, t)) (hrejected : outcome.status = .staticError) :
    t = s := by
  rw [Session.run_eq] at h
  split at h
  · generalize runProgram fuel (check source).program s.start = result at h
    rcases result with ⟨flow, m⟩ | ⟨e | _, m⟩
    · cases h
      cases hrejected
    · cases h
      cases hrejected
    · cases h
  · cases h
    rfl

/-- The runs that executed lead to the same session on their own. -/
theorem Runs.filter_executed {runs : List Ran} (h : s.Runs runs t) :
    s.Runs (runs.filter Ran.executed) t := by
  induction h with
  | nil s => exact .nil s
  | @cons s t u fuel source outcome rest hrun _ ih =>
    by_cases hrejected : outcome.status = .staticError
    · rw [List.filter_cons_of_neg (by simp [Ran.executed, ran, hrejected])]
      rwa [eq_of_run_rejected hrun hrejected] at ih
    · rw [List.filter_cons_of_pos (by simp [Ran.executed, ran, hrejected])]
      exact .cons hrun ih

/-- The sources decide what is seen of their runs, and the session that they lead to. -/
theorem Runs.unique {runs runs' : List Ran} (h : s.Runs runs t) (h' : s.Runs runs' t')
    (hsources : runs.map Ran.source = runs'.map Ran.source) : runs = runs' ∧ t = t' := by
  induction h generalizing runs' with
  | nil s =>
    cases h' with
    | nil => exact ⟨rfl, rfl⟩
    | cons => simp at hsources
  | cons hrun _ ih =>
    cases h' with
    | nil => simp at hsources
    | cons hrun' hrest' =>
      obtain ⟨hsource, hothers⟩ := List.cons.inj hsources
      cases hsource
      cases run_unique hrun hrun'
      obtain ⟨rfl, rfl⟩ := ih hrest' hothers
      exact ⟨rfl, rfl⟩

/-- Rejected sources leave no trace: without them the other ones can be run from the same session,
they lead to the same session, and however they are run, what is seen of each of them is what was
seen before. -/
theorem runs_without_rejected {runs : List Ran} (h : s.Runs runs t) :
    s.Runs (runs.filter Ran.executed) t ∧
      ∀ runs' t', s.Runs runs' t' →
        runs'.map Ran.source = (runs.filter Ran.executed).map Ran.source →
        runs' = runs.filter Ran.executed ∧ t' = t :=
  ⟨h.filter_executed, fun _ _ h' hsources => h'.unique h.filter_executed hsources⟩

/-- A sink that is full in the first run, a rejected source, and a run that assigns a name. -/
theorem runs_without_rejected_between :
    ∃ runs t, (Session.new 10 (.limited 2 9)).Runs runs t ∧
      runs.map (fun r => (r.source, r.outcome.status)) = [("print(\"abc\")", .runtimeError),
        ("x = )", .staticError), ("x = \"c\"", .success)] ∧
      (runs.filter Ran.executed).map (fun r => (r.output.size, r.globals.names)) =
        [(2, []), (0, ["x"])] ∧
      (Session.new 10 (.limited 2 9)).Runs (runs.filter Ran.executed) t := by
  let first := "print(\"abc\")"
  let second := "x = )"
  let third := "x = \"c\""
  let s := Session.new 10 (.limited 2 9)
  have hcheck₁ : check first = checkUpTo 30 first := check_eq_checkUpTo (by decide +kernel)
  have hcheck₂ : check second = checkUpTo 30 second := check_eq_checkUpTo (by decide +kernel)
  have hcheck₃ : check third = checkUpTo 30 third := check_eq_checkUpTo (by decide +kernel)
  have hend : ((s.run 9 first).bind fun r => (r.2.run 9 second).bind fun r' =>
      (r'.2.run 9 third).map fun r'' =>
        ([(first, r.1.status), (second, r'.1.status), (third, r''.1.status)],
          ([s.ran first r.1 r.2, r.2.ran second r'.1 r'.2, r'.2.ran third r''.1 r''.2].filter
            Ran.executed).map fun r => (r.output.size, r.globals.names))) =
        some ([(first, .runtimeError), (second, .staticError), (third, .success)],
          [(2, []), (0, ["x"])]) := by
    simp only [Session.run_eq, hcheck₁, hcheck₂, hcheck₃]
    decide +kernel
  obtain ⟨⟨outcome₁, t₁⟩, hrun₁, hend⟩ := Option.bind_eq_some_iff.mp hend
  obtain ⟨⟨outcome₂, t₂⟩, hrun₂, hend⟩ := Option.bind_eq_some_iff.mp hend
  obtain ⟨⟨outcome₃, t₃⟩, hrun₃, hend⟩ := Option.map_eq_some_iff.mp hend
  obtain ⟨hstatuses, hseen⟩ := Prod.mk.inj hend
  have hruns := Runs.cons hrun₁ (.cons hrun₂ (.cons hrun₃ (.nil t₃)))
  exact ⟨_, t₃, hruns, hstatuses, hseen, (runs_without_rejected hruns).1⟩

end Session

end Offside
