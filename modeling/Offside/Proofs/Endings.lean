import Offside.Proofs.Histories
import Offside.Proofs.Scopes

/-!
# How runs end

A run goes on until a moment raises an error. Then nothing more happens: the frames that are still
entered are left, and the error is the result of the run. So every error of a run is raised at the
last moment of its history, and a moment that raises an error is the last one.
-/

namespace Offside

/-- The error that a moment raises, if it does. -/
def Moment.raised (x : Moment) : Option RuntimeError :=
  match x.event with
  | .start _ _ => none
  | .act a =>
    match a.perform x.machine with
    | .error (.failed e) _ => some e
    | _ => none
  | .call _ name _ _ _ =>
    if x.machine.depthLimit ≤ x.machine.depth then some ⟨.tooDeep, name⟩ else none

/-- The state behind a moment that raises an error: an act may have been done in part. -/
def Moment.aftermath (x : Moment) : Machine :=
  match x.event with
  | .act a => Eval.stateAfter (a.perform x.machine)
  | .start _ _ | .call _ _ _ _ _ => x.machine

/-- A state after leaving some of the frames of another one, with nothing else done. -/
structure Machine.Unwound (n m : Machine) : Prop where
  sink : m.sink = n.sink
  identity : m.nextIdentity = n.nextIdentity
  size : m.scopes.size ≤ n.scopes.size
  bindings (f : Nat) : f < m.scopes.size → m.scopes.bindings f = n.scopes.bindings f

/-- A state is unwound from itself. -/
theorem Machine.Unwound.refl (m : Machine) : m.Unwound m :=
  ⟨rfl, rfl, Nat.le_refl _, fun _ _ => rfl⟩

/-- Leaving frames only drops what was made later. -/
theorem Machine.Unwound.leave {n m : Machine} (h : n.Unwound m) (size : Nat) :
    n.Unwound (m.leave size) where
  sink := h.sink
  identity := h.identity
  size := by
    have hsize : (m.leave size).scopes.size = min size m.scopes.size := Scopes.size_truncate ..
    have hle := h.size
    omega
  bindings f hf := by
    have hsize : (m.leave size).scopes.size = min size m.scopes.size := Scopes.size_truncate ..
    rw [hsize] at hf
    calc (m.leave size).scopes.bindings f
      _ = m.scopes.bindings f := Scopes.bindings_truncate_of_lt (by omega)
      _ = n.scopes.bindings f := h.bindings f (by omega)

/-- So does coming back from a function body. -/
theorem Machine.Unwound.comeBack {n m : Machine} (h : n.Unwound m) (size : Nat) :
    n.Unwound (m.comeBack size) := by
  have hdepth : n.Unwound { m with depth := m.depth - 1 } :=
    ⟨h.sink, h.identity, h.size, h.bindings⟩
  exact hdepth.leave size

/-- How a history belongs to the result of a run: it raises an error exactly if the run fails, and
only at its last moment. -/
inductive Ends {α : Type} : List Moment → EStateM.Result Halt Machine α → Prop
  | ok {h : List Moment} {a : α} {m : Machine} : (∀ x ∈ h, x.raised = none) → Ends h (.ok a m)
  | exhausted {h : List Moment} {m : Machine} : (∀ x ∈ h, x.raised = none) →
    Ends h (.error .exhausted m)
  | failed {before : List Moment} {x : Moment} {e : RuntimeError} {m : Machine} :
    (∀ y ∈ before, y.raised = none) → x.raised = some e → x.aftermath.Unwound m →
    Ends (before ++ [x]) (.error (.failed e) m)

namespace Ends

variable {α β : Type} {h h' : List Moment} {m : Machine}

/-- The moments of two runs are the moments of both one after the other, if the first one ends
normally. -/
theorem append {a : α} {r : EStateM.Result Halt Machine β}
    (hfirst : Ends h (.ok a m : EStateM.Result Halt Machine α)) (hrest : Ends h' r) :
    Ends (h ++ h') r := by
  cases hfirst with
  | ok hquiet =>
    have hboth {l : List Moment} (hl : ∀ x ∈ l, x.raised = none) :
        ∀ x ∈ h ++ l, x.raised = none :=
      fun x hx => (List.mem_append.mp hx).elim (hquiet x) (hl x)
    cases hrest with
    | ok hl => exact .ok (hboth hl)
    | exhausted hl => exact .exhausted (hboth hl)
    | failed hl hx hm =>
      rw [← List.append_assoc]
      exact .failed (hboth hl) hx hm

/-- A moment that raises an error, with nothing in front of it. -/
theorem failed_singleton {x : Moment} {e : RuntimeError} (hx : x.raised = some e)
    (hm : x.aftermath.Unwound m) :
    Ends [x] (.error (.failed e) m : EStateM.Result Halt Machine α) := by
  rw [← List.nil_append [x]]
  exact .failed (by simp) hx hm

/-- Leaving frames does not change how a run ends. -/
theorem settled {r : EStateM.Result Halt Machine α} {change : Machine → Machine}
    (hr : Ends h r) (hchange : ∀ n m : Machine, n.Unwound m → n.Unwound (change m)) :
    Ends h (Eval.settled change r) := by
  cases hr with
  | ok hquiet => exact .ok hquiet
  | exhausted hquiet => exact .exhausted hquiet
  | failed hquiet hx hm => exact .failed hquiet hx (hchange _ _ hm)

/-- A moment that raises an error is the last one, and the run fails with that error. -/
theorem of_raised {before after : List Moment} {x : Moment} {e : RuntimeError}
    {r : EStateM.Result Halt Machine α} (hends : Ends (before ++ x :: after) r)
    (hx : x.raised = some e) :
    after = [] ∧ ∃ m, r = .error (.failed e) m ∧ x.aftermath.Unwound m := by
  have hmem : x ∈ before ++ x :: after := by simp
  generalize hhistory : before ++ x :: after = history at hends hmem
  cases hends with
  | ok hquiet => simp [hquiet x hmem] at hx
  | exhausted hquiet => simp [hquiet x hmem] at hx
  | @failed before' x' e' m hquiet hx' hm =>
    -- Only the last moment raises an error, so that `x` cannot stand in front of another one.
    rcases List.eq_nil_or_concat after with rfl | ⟨inner, last, rfl⟩
    · obtain ⟨-, hsame⟩ := List.append_inj' hhistory rfl
      cases hsame
      rw [hx] at hx'
      cases hx'
      exact ⟨rfl, m, rfl, hm⟩
    · have hsplit : (before ++ x :: inner) ++ [last] = before' ++ [x'] := by
        rw [← hhistory]
        simp
      obtain ⟨hbefore, -⟩ := List.append_inj' hsplit rfl
      have hnone := hquiet x (by rw [← hbefore]; simp)
      rw [hx] at hnone
      cases hnone

/-- A run that fails does so at its last moment. -/
theorem of_failed {e : RuntimeError}
    (hends : Ends h (.error (.failed e) m : EStateM.Result Halt Machine α)) :
    ∃ before x, h = before ++ [x] ∧ x.raised = some e ∧ x.aftermath.Unwound m := by
  cases hends with
  | failed _ hx hm => exact ⟨_, _, rfl, hx, hm⟩

end Ends

/-- Every history ends as its run does. -/
def Chronicle.endings : Chronicle where
  holds _ _ h r := Ends h r
  done _ _ _ := .ok (by simp)
  exhausted _ _ := .exhausted (by simp)
  start k m f part := .ok (by simp [Moment.raised])
  act k m a := by
    let x : Moment := ⟨k, m, .act a⟩
    change Ends [x] (a.perform m)
    have hraised : x.raised = match a.perform m with
      | .error (.failed e) _ => some e
      | _ => none := rfl
    have haftermath : x.aftermath = Eval.stateAfter (a.perform m) := rfl
    generalize a.perform m = r at hraised haftermath
    rcases r with ⟨v, m'⟩ | ⟨e | _, m'⟩
    · exact .ok (by simpa using hraised)
    · have hunwound : x.aftermath.Unwound m' := haftermath ▸ Machine.Unwound.refl m'
      exact .failed_singleton hraised hunwound
    · exact .exhausted (by simpa using hraised)
  append := Ends.append
  stop h := by
    cases h with
    | exhausted hquiet => exact .exhausted hquiet
    | failed hquiet hx hm => exact .failed hquiet hx hm
  block h := h.settled fun _ _ hm => hm.leave _
  tooDeep _ hdeep := .failed_singleton (if_pos hdeep) (Machine.Unwound.refl _)
  call {k f m name arguments function values _ _} _ hdeep h := by
    let x : Moment := ⟨k, m, .call f name arguments function values⟩
    have hx : x.raised = none := if_neg (Nat.not_le.mpr hdeep)
    have hquiet : Ends [x] (.ok () m : EStateM.Result Halt Machine Unit) := .ok (by simpa using hx)
    exact hquiet.append (h.settled fun _ _ hm => hm.comeBack _)

/-! ## Errors because of a limit -/

/-- Of all acts only printing fails because of a limit. -/
theorem Act.print_of_isLimit {a : Act} {m m' : Machine} {e : RuntimeError}
    (h : a.perform m = .error (.failed e) m') (he : e.fault.isLimit = true) :
    ∃ keyword line cause, a = .print keyword line ∧ (m.sink.writeLine line).1 = .error cause ∧
      e = ⟨.output cause, keyword⟩ := by
  cases a with
  | lookup f name =>
    change Eval.lookup f name m = _ at h
    rw [Eval.lookup_apply] at h
    split at h
    · cases h
    · cases h
      cases he
  | assign f name value => cases h
  | issue => cases h
  | print keyword line =>
    simp only [Act.perform, Eval.print] at h
    split at h
    · cases h
    next cause sink hrefused =>
      cases h
      exact ⟨keyword, line, cause, rfl, by rw [hrefused], rfl⟩
  | fail e' hfault =>
    cases h
    rw [hfault] at he
    cases he

/-- The error about the depth is raised by calls only. -/
theorem Moment.raised_tooDeep {x : Moment} {name : Token}
    (h : x.raised = some ⟨.tooDeep, name⟩) :
    ∃ f arguments function values, x.event = .call f name arguments function values ∧
      x.machine.depthLimit ≤ x.machine.depth := by
  obtain ⟨k, m, event⟩ := x
  cases event with
  | start f part => cases h
  | act a =>
    simp only [Moment.raised] at h
    split at h
    next e m' hfailed =>
      cases h
      obtain ⟨_, _, _, -, -, hne⟩ := Act.print_of_isLimit hfailed rfl
      cases hne
    · cases h
  | call f name' arguments function values =>
    simp only [Moment.raised] at h
    split at h
    next hdeep =>
      cases h
      exact ⟨f, arguments, function, values, rfl, hdeep⟩
    · cases h

/-- The wording tells the error about the depth from all others. -/
theorem RuntimeError.message_diagnostic_iff {e : RuntimeError} :
    e.diagnostic.message = "Maximum recursion depth exceeded." ↔ e.fault = .tooDeep := by
  obtain ⟨fault, token⟩ := e
  change RuntimeError.message _ = _ ↔ _
  constructor
  · intro h
    -- No other message starts with the same letter.
    have hfirst := congrArg (fun s => s.toList.head?) h
    cases fault <;> first | rfl | simp [RuntimeError.message, String.toList_append] at hfirst
  · rintro ⟨⟩
    rfl

end Offside
