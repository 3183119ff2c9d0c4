import Offside.Proofs.Endings
import Offside.Proofs.Leeway
import Offside.Proofs.Splitting

/-!
# Larger limits of the depth

A run that never asks for more active bodies than are allowed does not notice the limit: with any
larger limit it does the same and ends in the same way.
-/

namespace Offside

/-- The session with another limit of the depth. -/
def Session.withLimit (limit : Nat) (s : Session) : Session :=
  ⟨{ s.machine with depthLimit := limit }⟩

/-- Two limits of the depth, with the same sink. -/
def Leeway.ofDepth {limit larger : Nat} (hle : limit ≤ larger) : Leeway where
  sinks := Eq
  limits n n' := n = limit ∧ n' = larger
  excused fault := fault = .tooDeep
  writeLine line h := .inl (by rw [h]; exact ⟨rfl, rfl⟩)
  tooDeep _ _ := .inr rfl
  notTooDeep h hdeep := by omega

variable {limit larger : Nat} {hle : limit ≤ larger}

/-- Only the limit tells twins apart. -/
theorem Leeway.Twins.eq_withLimit {m m' : Machine} (h : (Leeway.ofDepth hle).Twins m m') :
    m' = { m with depthLimit := larger } := by
  obtain ⟨hscopes, hdepth, hidentity, hsink, -, hlimit⟩ := h
  change m.sink = m'.sink at hsink
  cases m'
  simp_all

/-- The end of a run that is not refused a call is also the end with the larger limit. -/
theorem Session.conclude_along {h h' : List Moment} {r r' : EStateM.Result Halt Machine Flow}
    {outcome : Outcome} {s : Session} (halong : (Leeway.ofDepth hle).Along h r h' r')
    (hend : Session.conclude r = some (outcome, s))
    (hdeep : ∀ d ∈ outcome.diagnostics, d.message ≠ "Maximum recursion depth exceeded.") :
    Session.conclude r' = some (outcome, s.withLimit larger) := by
  cases halong with
  | ok _ hm =>
    cases hend
    rw [hm.eq_withLimit]
    rfl
  | exhausted _ => cases hend
  | failed _ hm _ =>
    cases hend
    rw [hm.eq_withLimit]
    rfl
  | parted _ _ hexcused =>
    cases hend
    have hmessage := RuntimeError.message_diagnostic_iff.mpr hexcused
    exact absurd hmessage (hdeep _ (List.mem_singleton_self _))

/-- Raising the limit of the depth changes nothing in a run that was refused no call: status and
diagnostics are the same, and the session that is left has the same globals, the same sink and the
same of everything else but the limit. -/
theorem run_withLimit_of_le {fuel limit larger : Nat} {s s' : Session} {source : String}
    {outcome : Outcome} (hle : limit ≤ larger)
    (hrun : (s.withLimit limit).run fuel source = some (outcome, s'))
    (hdeep : ∀ d ∈ outcome.diagnostics, d.message ≠ "Maximum recursion depth exceeded.") :
    (s.withLimit larger).run fuel source = some (outcome, s'.withLimit larger) := by
  rw [Session.run_eq] at hrun ⊢
  split at hrun
  next hclean =>
    rw [if_pos hclean]
    have htwins : (Leeway.ofDepth hle).Twins (s.withLimit limit).start (s.withLimit larger).start :=
      ⟨rfl, rfl, rfl, rfl, rfl, rfl⟩
    have halong := (Leeway.ofDepth hle).ofProgram fuel (check source).program htwins
    exact Session.conclude_along halong hrun hdeep
  next hclean =>
    rw [if_neg hclean]
    cases hrun
    rfl

/-- One function calls another one, so that two bodies are active at once. -/
theorem run_withLimit_of_le_nested :
    ∃ s', (Session.new 3 {}).run 9 "def f():\n  return f\ndef g():\n  return f()\nh = g()\n" =
      some (⟨.success, []⟩, s') ∧ s'.globals.names = ["f", "g", "h"] := by
  let source := "def f():\n  return f\ndef g():\n  return f()\nh = g()\n"
  have hcheck : check source = checkUpTo 60 source := check_eq_checkUpTo (by decide +kernel)
  have hclean : (check source).diagnostics = [] := by
    rw [hcheck]
    decide +kernel
  have hend : ((Session.new 2 {}).run 9 source).map (fun r => (r.1, r.2.globals.names)) =
      some (⟨.success, []⟩, ["f", "g", "h"]) := by
    rw [Session.run_of_clean hclean, hcheck]
    decide +kernel
  obtain ⟨⟨outcome, s'⟩, hrun, hsame⟩ := Option.map_eq_some_iff.mp hend
  obtain ⟨rfl, hnames⟩ := Prod.mk.inj hsame
  have hle : 2 ≤ 3 := by decide
  have hlarger := run_withLimit_of_le (s := Session.new 2 {}) hle hrun (by simp)
  exact ⟨s'.withLimit 3, hlarger, hnames⟩

end Offside
