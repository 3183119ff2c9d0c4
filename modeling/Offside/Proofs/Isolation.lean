import Offside.Proofs.Correspondence
import Offside.Proofs.FrameDiscipline
import Offside.Proofs.Identities

/-!
# Function bodies do not see their callers

A function body runs in a frame around which there are only the globals. Two calls of one function
with the same arguments and the same globals therefore run in step, whatever other frames there are:
they correspond up to the numbers of frames and identities made during the calls.
-/

namespace Offside

/-- Two calls with the same globals. All that is shared is the global frame and the identities that
had been given out in both states. -/
def Correspondence.ofCalls (m m' : Machine) (h : Machine.globalFrame < m.scopes.size)
    (h' : Machine.globalFrame < m'.scopes.size) : Correspondence where
  frames := ⟨1, m.scopes.size, m'.scopes.size, h, h'⟩
  identities :=
    ⟨min m.nextIdentity m'.nextIdentity, m.nextIdentity, m'.nextIdentity, Nat.min_le_left _ _,
      Nat.min_le_right _ _⟩
  moves g := g = id
  isMove hg := isMove_of_eq_id hg
  global := .inl ⟨rfl, Nat.zero_lt_one⟩

/-- Values from before two calls are alike if they are equal. -/
theorem Value.MadeBefore.alike {C : Correspondence} {v : Value}
    (h : v.MadeBefore C.identities.shared) (hid : C.moves id) : v.Alike C.likeness v := by
  induction h with
  | plain hv => exact .of_isPlain hv
  | list hi _ ih => exact .list (.inl ⟨rfl, hi⟩) (List.forall₂_same.mpr ih)
  | @function i definition hi =>
    have halike : (Value.function i definition).Alike C.likeness
        (.function i (definition.move id)) := .function definition (.inl ⟨rfl, hi⟩) hid
    rwa [Function.move_id] at halike

/-- Nothing lies around the global frame. -/
theorem Scopes.parent_globalFrame (s : Scopes) : s.parent Machine.globalFrame = none := by
  cases hp : s.parent Machine.globalFrame with
  | none => rfl
  | some outer => exact absurd (Scopes.parent_lt hp) (Nat.not_lt_zero _)

/-- How two calls end alike: with alike values or the same runtime error, the same output and alike
globals, or both of them for want of fuel. -/
inductive EndsAlike (L : Likeness) :
    EStateM.Result Halt Machine Value → EStateM.Result Halt Machine Value → Prop
  | returned {v v' : Value} {m m' : Machine} : v.Alike L v' → m.sink = m'.sink →
    m.globals.Alike L m'.globals → EndsAlike L (.ok v m) (.ok v' m')
  | failed {e : RuntimeError} {m m' : Machine} : m.sink = m'.sink →
    m.globals.Alike L m'.globals →
    EndsAlike L (.error (.failed e) m) (.error (.failed e) m')
  | exhausted {m m' : Machine} : EndsAlike L (.error .exhausted m) (.error .exhausted m')

/-- Two states in which a call sees the same: the globals, the arguments, the output so far and the
depth are equal, and what the call makes gets new identities. Nothing is said about the other
frames. -/
structure SameForCall (values : List Value) (m m' : Machine) : Prop where
  global : Machine.globalFrame < m.scopes.size
  global' : Machine.globalFrame < m'.scopes.size
  globals : m.globals = m'.globals
  made : m.globals.MadeBefore m.nextIdentity
  made' : m'.globals.MadeBefore m'.nextIdentity
  arguments : ∀ v ∈ values, v.MadeBefore m.nextIdentity
  arguments' : ∀ v ∈ values, v.MadeBefore m'.nextIdentity
  sink : m.sink = m'.sink
  depth : m.depth = m'.depth
  depthLimit : m.depthLimit = m'.depthLimit

namespace SameForCall

variable {values : List Value} {m m' : Machine}

/-- The conditions of a comparison are symmetric. -/
theorem symm (h : SameForCall values m m') : SameForCall values m' m :=
  ⟨h.global', h.global, h.globals.symm, h.made', h.made, h.arguments', h.arguments, h.sink.symm,
    h.depth.symm, h.depthLimit.symm⟩

/-- Sound states, as sessions have them, need only hold the same. -/
theorem ofSound (hm : m.Sound) (hm' : m'.Sound) (hglobals : m.globals = m'.globals)
    (harguments : ∀ v ∈ values, v.MadeBefore m.nextIdentity ∧ v.MadeBefore m'.nextIdentity)
    (hsink : m.sink = m'.sink) (hdepth : m.depth = m'.depth)
    (hlimit : m.depthLimit = m'.depthLimit) : SameForCall values m m' :=
  ⟨hm.global, hm'.global, hglobals, hm.bindings _, hm'.bindings _, fun v hv => (harguments v hv).1,
    fun v hv => (harguments v hv).2, hsink, hdepth, hlimit⟩

/-- What may differ between two calls. -/
abbrev correspondence (h : SameForCall values m m') : Correspondence :=
  .ofCalls m m' h.global h.global'

/-- A value that was made before both calls is alike itself. -/
theorem alike_self (h : SameForCall values m m') {v : Value} (hv : v.MadeBefore m.nextIdentity)
    (hv' : v.MadeBefore m'.nextIdentity) : v.Alike h.correspondence.likeness v := by
  apply Value.MadeBefore.alike _ rfl
  change v.MadeBefore (min m.nextIdentity m'.nextIdentity)
  rcases Nat.le_total m.nextIdentity m'.nextIdentity with hle | hle
  · rwa [Nat.min_eq_left hle]
  · rwa [Nat.min_eq_right hle]

/-- Equal globals are alike under the correspondence of the two calls. -/
theorem alike_globals (h : SameForCall values m m') :
    m.globals.Alike h.correspondence.likeness m'.globals := by
  rw [← h.globals]
  refine List.forall₂_same.mpr fun entry hentry => ⟨rfl, h.alike_self ?_ ?_⟩
  · exact h.made _ (List.mem_map_of_mem hentry)
  · have hentry' : entry ∈ m'.globals := h.globals ▸ hentry
    exact h.made' _ (List.mem_map_of_mem hentry')

/-- Of the frames that are there before the calls, only the global ones correspond. -/
theorem frames_cases (h : SameForCall values m m') {f f' : Nat}
    (hf : h.correspondence.frames.Rel f f') :
    f = Machine.globalFrame ∧ f' = Machine.globalFrame ∨
      m.scopes.size ≤ f ∧ m'.scopes.size ≤ f' := by
  rcases hf with ⟨rfl, hf⟩ | ⟨k, rfl, rfl⟩
  · have hzero : f = Machine.globalFrame := Nat.lt_one_iff.mp hf
    exact .inl ⟨hzero, hzero⟩
  · exact .inr ⟨Nat.le_add_right _ _, Nat.le_add_right _ _⟩

/-- The two states correspond when the calls start. -/
theorem ofMachines (h : SameForCall values m m') : h.correspondence.OfMachines m m' where
  scopes :=
    { size := ⟨0, rfl, rfl⟩
      parent := by
        intro f f' hf
        rcases h.frames_cases hf with ⟨rfl, rfl⟩ | ⟨hsize, hsize'⟩
        · rw [Scopes.parent_globalFrame, Scopes.parent_globalFrame]
          exact .none
        · rw [Scopes.parent_of_size_le hsize, Scopes.parent_of_size_le hsize']
          exact .none
      bindings := by
        intro f f' hf
        rcases h.frames_cases hf with ⟨rfl, rfl⟩ | ⟨hsize, hsize'⟩
        · exact h.alike_globals
        · rw [Scopes.bindings_of_size_le hsize, Scopes.bindings_of_size_le hsize']
          exact .nil }
  sink := h.sink
  depth := h.depth
  depthLimit := h.depthLimit
  identity := ⟨0, rfl, rfl⟩

/-- The calls run in step until the first of them runs out of fuel. -/
theorem related (h : SameForCall values m m') (fuel : Nat) (name : Token) (function : Function) :
    h.correspondence.simulation.Related (Value.Alike h.correspondence.likeness)
      ((Parts.withFuel fuel).invoke name function values m)
      ((Parts.withFuel fuel).invoke name function values m') := by
  have hvalues : List.Forall₂ (Value.Alike h.correspondence.likeness) values values :=
    List.forall₂_same.mpr fun v hv => h.alike_self (h.arguments v hv) (h.arguments' v hv)
  have hparts := h.correspondence.simulation.matchesParts (Nat.le_refl fuel)
  have hrun := Simulation.matches_invoke hparts (g := id) (h := id) rfl rfl name function hvalues
  rw [Function.move_id] at hrun
  exact hrun m m' h.ofMachines

/-- If the first call runs out of fuel, so does the second one. -/
theorem endsAlike (h : SameForCall values m m') (fuel : Nat) (name : Token) (function : Function) :
    EndsAlike h.correspondence.likeness ((Parts.withFuel fuel).invoke name function values m)
      ((Parts.withFuel fuel).invoke name function values m') := by
  have hforth := h.related fuel name function
  have hback := h.symm.related fuel name function
  generalize (Parts.withFuel fuel).invoke name function values m = r at hforth hback
  generalize (Parts.withFuel fuel).invoke name function values m' = r' at hforth hback
  cases hforth with
  | ok hn hv => exact .returned hv hn.sink (hn.scopes.bindings h.correspondence.global)
  | @failed e e' n n' hn he =>
    obtain ⟨hfault, g, rfl, htoken⟩ := he
    have heq : e' = e := by cases e; cases e'; cases hfault; cases htoken; rfl
    rw [heq]
    exact .failed hn.sink (hn.scopes.bindings h.correspondence.global)
  | excused hhalt =>
    -- A call without fuel excuses whatever the other one does; only the converse makes it stop too.
    cases hhalt
    cases hback with
    | excused hhalt' =>
      cases hhalt'
      exact .exhausted

end SameForCall

/-- A function body is isolated from the locals of its caller: from two states that are the same
for the call it ends alike, up to the identities made during the call, and in each of them every
frame other than the global one keeps exactly its bindings. -/
theorem body_isolated_from_caller {values : List Value} {m m' : Machine}
    (h : SameForCall values m m') (fuel : Nat) (name : Token) (function : Function) :
    let result := (Parts.withFuel fuel).invoke name function values m
    let result' := (Parts.withFuel fuel).invoke name function values m'
    EndsAlike h.correspondence.likeness result result' ∧
      (∀ g, g ≠ Machine.globalFrame →
        (Eval.stateAfter result).scopes.bindings g = m.scopes.bindings g) ∧
      ∀ g, g ≠ Machine.globalFrame →
        (Eval.stateAfter result').scopes.bindings g = m'.scopes.bindings g := by
  refine ⟨h.endsAlike fuel name function, fun g hg => ?_, fun g hg => ?_⟩
  · exact (sealedStep_invoke fuel name function values m).kept_of_ne hg
  · exact (sealedStep_invoke fuel name function values m').kept_of_ne hg

/-- A state in which a function was called, with a global list and the given locals. -/
def Machine.inCall (locals : Bindings) (nextIdentity : Nat) : Machine where
  scopes := (Scopes.push {} none [("shared", .list 0 [])]).push (some globalFrame) locals
  depth := 1
  depthLimit := 10
  nextIdentity := nextIdentity

/-- A machine inside a call is sound if its locals were made before. -/
theorem Machine.sound_inCall {locals : Bindings} {n : Nat} (hn : 0 < n)
    (h : locals.MadeBefore n) : (Machine.inCall locals n).Sound where
  global := by simp [Machine.inCall, Machine.globalFrame]
  bindings f v hv := by
    simp only [Machine.inCall, Scopes.bindings_push] at hv
    split at hv
    · exact h v hv
    · split at hv
      · simp only [List.map_cons, List.map_nil, List.mem_singleton] at hv
        subst hv
        exact .list hn (by simp)
      · simp [Scopes.bindings_of_size_le (s := {}) (Nat.zero_le f)] at hv

/-- A body that makes a list of its argument, a global name and a name that only its caller has
ends alike for two callers, and the first caller keeps its own value of the name. -/
theorem body_isolated_in_inCall :
    let t (lexeme : String) : Token := ⟨.identifier, lexeme, 1, ⟨0, 0⟩⟩
    let items := [Expr.variable (t "p"), .variable (t "shared"), .variable (t "x")]
    let function : Function := ⟨t "f", [t "p"], [.return (t "return") (some (.list items))]⟩
    let m := Machine.inCall [("x", .number 1)] 1
    let m' := Machine.inCall [("x", .list 4 []), ("y", .none)] 7
    let result := (Parts.withFuel 9).invoke (t "f") function [.list 0 []] m
    let result' := (Parts.withFuel 9).invoke (t "f") function [.list 0 []] m'
    ∃ h : SameForCall [.list 0 []] m m',
      EndsAlike h.correspondence.likeness result result' ∧
        (Eval.stateAfter result).scopes.bindings 1 = [("x", .number 1)] := by
  intro t items function m m' result result'
  have hlocals : Bindings.MadeBefore 1 [("x", .number 1)] := by
    rintro v (_ | ⟨_, ⟨⟩⟩)
    exact .plain rfl
  have hlocals' : Bindings.MadeBefore 7 [("x", .list 4 []), ("y", .none)] := by
    rintro v (_ | ⟨_, _ | ⟨_, ⟨⟩⟩⟩)
    · exact .list (by omega) (by simp)
    · exact .plain rfl
  have hargument {n : Nat} (hn : 0 < n) : (Value.list 0 []).MadeBefore n := .list hn (by simp)
  have h : SameForCall [.list 0 []] m m' := by
    apply SameForCall.ofSound (Machine.sound_inCall (by omega) hlocals)
      (Machine.sound_inCall (by omega) hlocals') rfl _ rfl rfl rfl
    rintro v (_ | ⟨_, ⟨⟩⟩)
    exact ⟨hargument (by decide), hargument (by decide)⟩
  obtain ⟨hends, hkept, -⟩ := body_isolated_from_caller h 9 (t "f") function
  exact ⟨h, hends, hkept 1 (by decide)⟩

end Offside
