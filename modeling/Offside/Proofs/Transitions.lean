import Offside.Proofs.Scopes
import Offside.Session

/-!
# Elementary changes of the machine

Evaluation changes the state of the machine in a few ways only: it assigns, gives out an identity,
prints, and enters and leaves frames. The changes have names here, and blocks and calls are put in
their terms: a block enters a frame, runs its statements and leaves the frame however they end.
-/

namespace Offside

namespace Machine

/-- The state with a new frame. -/
def enter (outer : Nat) (bindings : Bindings) (m : Machine) : Machine :=
  { m with scopes := m.scopes.push (some outer) bindings }

/-- The state without the frames from the given number on. -/
def leave (size : Nat) (m : Machine) : Machine := { m with scopes := m.scopes.truncate size }

/-- The state in which a function body starts. -/
def call (bindings : Bindings) (m : Machine) : Machine :=
  { m.enter globalFrame bindings with depth := m.depth + 1 }

/-- The state in which the caller of a function goes on. -/
def comeBack (size : Nat) (m : Machine) : Machine := { m with depth := m.depth - 1 }.leave size

/-- The state after giving out an identity. -/
def issue (m : Machine) : Machine := { m with nextIdentity := m.nextIdentity + 1 }

/-- The state after an assignment. -/
def assign (frame : Nat) (name : String) (value : Value) (m : Machine) : Machine :=
  { m with scopes := m.scopes.assign frame name value }

end Machine

namespace Eval

variable {α : Type} {m : Machine}

/-- The state that an action reaches, whether it fails or not. -/
def stateAfter : EStateM.Result Halt Machine α → Machine
  | .ok _ m => m
  | .error _ m => m

/-- Reading the state passes it on. -/
theorem get_bind (k : Machine → Eval α) (m : Machine) : (get >>= k) m = k m m := rfl

/-- A step that succeeds hands over its value and state. -/
theorem bind_of_ok {β : Type} {x : Eval α} {k : α → Eval β} {a : α} {m' : Machine}
    (h : x m = .ok a m') : (x >>= k) m = k a m' := by
  simp only [bind, EStateM.bind, h]

/-- A lookup gives the value found or fails at the name. -/
theorem lookup_apply (f : Nat) (name : Token) (m : Machine) :
    lookup f name m =
      match m.scopes.lookup f name.lexeme with
      | some v => .ok v m
      | none => .error (.failed ⟨.undefinedVariable, name⟩) m := by
  rw [lookup, get_bind]
  cases m.scopes.lookup f name.lexeme <;> rfl

/-- An assignment changes the frames and succeeds. -/
theorem assign_apply (f : Nat) (name : Token) (v : Value) (m : Machine) :
    assign f name v m = .ok () (m.assign f name.lexeme v) := rfl

/-- How running an action and then changing the state ends, by how the action ends. -/
theorem thenAlways_cases {action : Eval α} {change : Machine → Machine}
    {motive : EStateM.Result Halt Machine α → Prop}
    (hok : ∀ a m', action m = .ok a m' → motive (.ok a (change m')))
    (herror : ∀ e m', action m = .error e m' → motive (.error e (change m'))) :
    motive (thenAlways action change m) := by
  unfold thenAlways
  cases haction : action m with
  | ok a m' => exact hok a m' haction
  | error e m' => exact herror e m' haction

/-- A last step is applied to the state however the action ended. -/
theorem stateAfter_thenAlways (action : Eval α) (change : Machine → Machine) (m : Machine) :
    stateAfter (thenAlways action change m) = change (stateAfter (action m)) := by
  unfold thenAlways
  cases action m with
  | ok a m' => rfl
  | error e m' => rfl

/-- Counting a call down again belongs to the last step. -/
theorem thenAlways_deeper (action : Eval α) (change : Machine → Machine) (m : Machine) :
    thenAlways (deeper action) change m =
      thenAlways action (fun m => change { m with depth := m.depth - 1 })
        { m with depth := m.depth + 1 } := by
  simp only [deeper, thenAlways]
  cases action { m with depth := m.depth + 1 } with
  | ok a m' => rfl
  | error e m' => rfl

end Eval

/-- A run fails in a state with a message about a token. -/
def FailsWith {α : Type} (token : Token) (message : String) (m : Machine)
    (r : EStateM.Result Halt Machine α) : Prop :=
  ∃ e : RuntimeError, r = .error (.failed e) m ∧ e.token = token ∧ e.message = message

namespace Parts

/-- The evaluation of parts with a given amount of fuel. -/
abbrev withFuel (fuel : Nat) : Parts := ⟨Expr.eval fuel, Stmt.exec fuel⟩

variable (p : Parts)

/-- Binds the name of a parameter to its argument. -/
def bindPair (bindings : Bindings) (pair : Token × Value) : Bindings :=
  bindings.set pair.1.lexeme pair.2

/-- Parameters are bound one after the other. -/
theorem bindParameters_eq (parameters : List Token) (values : List Value) :
    bindParameters parameters values = (parameters.zip values).foldl bindPair [] := rfl

/-- Parameters are bound to arguments only. -/
theorem snd_mem_bindParameters {parameters : List Token} {values : List Value} {v : Value}
    (h : v ∈ (bindParameters parameters values).map Prod.snd) : v ∈ values := by
  suffices hfold : ∀ (pairs : List (Token × Value)) (bindings : Bindings),
      v ∈ (pairs.foldl bindPair bindings).map Prod.snd →
        v ∈ bindings.map Prod.snd ∨ v ∈ pairs.map Prod.snd by
    rw [bindParameters_eq] at h
    rcases hfold _ _ h with hnil | hpair
    · simp at hnil
    · obtain ⟨⟨parameter, value⟩, hzip, rfl⟩ := List.mem_map.mp hpair
      exact (List.of_mem_zip hzip).2
  intro pairs
  induction pairs with
  | nil => exact fun _ h => .inl h
  | cons pair pairs ih =>
    intro bindings h
    rcases ih _ h with h | h
    · rcases Bindings.snd_mem_set h with rfl | h
      · exact .inr (by simp)
      · exact .inl h
    · exact .inr (List.mem_cons_of_mem _ h)

/-- A block is its statements in a new frame. -/
theorem execBlock_apply (f : Nat) (body : List Stmt) (m : Machine) :
    p.execBlock f body m =
      Eval.thenAlways (Eval.untilReturn (p.exec m.scopes.size) body) (Machine.leave m.scopes.size)
        (m.enter f []) := rfl

/-- The body of a function in a new frame around which there are only the globals. -/
def runBody (function : Function) (values : List Value) : Eval Flow := fun m =>
  Eval.thenAlways (Eval.untilReturn (p.exec m.scopes.size) function.body)
    (Machine.comeBack m.scopes.size) (m.call (bindParameters function.parameters values))

/-- A counted body in a frame of its own is the body of a function. -/
theorem withFrame_deeper (function : Function) (values : List Value) :
    (Eval.withFrame Machine.globalFrame (bindParameters function.parameters values) fun inner =>
      Eval.deeper (Eval.untilReturn (p.exec inner) function.body)) =
      p.runBody function values := by
  funext m
  exact Eval.thenAlways_deeper _ _ _

/-- A call runs the body unless that would be too deep. -/
theorem invoke_apply (name : Token) (function : Function) (values : List Value) (m : Machine) :
    p.invoke name function values m =
      if m.depthLimit ≤ m.depth then .error (.failed ⟨.tooDeep, name⟩) m
      else (p.runBody function values >>= fun flow => pure flow.result) m := by
  rw [← withFrame_deeper]
  rw [invoke, Eval.get_bind]
  split
  · rfl
  · rfl

end Parts

/-- What a session reports and keeps when the statements of a program end this way. -/
def Session.conclude : EStateM.Result Halt Machine Flow → Option (Outcome × Session)
  | .ok _ m => some (⟨.success, []⟩, ⟨m⟩)
  | .error (.failed e) m => some (⟨.runtimeError, [e.diagnostic]⟩, ⟨m⟩)
  | .error .exhausted _ => none

/-- The state in which the statements of a program start. -/
def Session.start (s : Session) : Machine := { s.machine with depth := 0 }

/-- The statements of a program, one after the other in the global frame. -/
def runProgram (fuel : Nat) (program : List Stmt) : Eval Flow :=
  Eval.untilReturn (Stmt.exec fuel Machine.globalFrame) program

/-- A program is interpreted from depth zero. -/
theorem interpret_apply (fuel : Nat) (program : List Stmt) (m : Machine) :
    interpret fuel program m =
      (runProgram fuel program >>= fun _ => pure ()) { m with depth := 0 } := rfl

/-- A session runs the statements of a source without errors, and nothing of any other. -/
theorem Session.run_eq (fuel : Nat) (s : Session) (source : String) :
    s.run fuel source =
      if (check source).diagnostics.isEmpty then
        Session.conclude (runProgram fuel (check source).program s.start)
      else some (⟨.staticError, (check source).diagnostics⟩, s) := by
  simp only [Session.run, interpret_apply, Session.start, bind, EStateM.bind]
  split
  · generalize runProgram _ _ _ = r
    rcases r with ⟨flow, m⟩ | ⟨_ | _, m⟩ <;> rfl
  · rfl

end Offside
