import Offside.RuntimeError
import Offside.Scope
import Offside.Sink

/-!
# The machine

The state of a running program, and the elementary actions on it. A run keeps the state that it
has reached also when it fails.
-/

namespace Offside

/-- Why a run stops before its end. -/
inductive Halt where
  /-- A runtime error. -/
  | failed (e : RuntimeError)
  /-- The number of steps given to the run does not suffice. -/
  | exhausted

/-- The state of a running program. -/
structure Machine where
  scopes : Scopes := Scopes.push {} none []
  sink : Sink := {}
  /-- The number of function bodies being executed. -/
  depth : Nat := 0
  /-- The largest allowed depth. -/
  depthLimit : Nat
  /-- The identity of the list or function made next. -/
  nextIdentity : Nat := 0

/-- The number of the global frame. -/
def Machine.globalFrame : Nat := 0

/-- The global bindings. -/
def Machine.globals (m : Machine) : Bindings := m.scopes.bindings globalFrame

/-- An action of a running program. -/
abbrev Eval := EStateM Halt Machine

/-- How a statement ends. -/
inductive Flow where
  /-- The next statement follows. -/
  | next
  /-- A return with its value. -/
  | returned (value : Value)

/-- What a function call yields if its body ends this way. -/
def Flow.result : Flow → Value
  | next => .none
  | returned value => value

namespace Eval

/-- Stops with a fault blamed on a token. -/
def fail {α : Type} (fault : RuntimeFault) (token : Token) : Eval α :=
  throw (.failed ⟨fault, token⟩)

/-- Stops for want of steps. -/
def exhausted {α : Type} : Eval α := throw .exhausted

/-- The result of an operation that may fail. -/
def ofExcept {α : Type} : Except RuntimeError α → Eval α
  | .ok a => pure a
  | .error e => throw (.failed e)

/-- The value of a name, seen from a frame. -/
def lookup (frame : Nat) (name : Token) : Eval Value := do
  match (← get).scopes.lookup frame name.lexeme with
  | some value => return value
  | none => fail .undefinedVariable name

/-- Assigns to a name from a frame. -/
def assign (frame : Nat) (name : Token) (value : Value) : Eval Unit :=
  modify fun m => { m with scopes := m.scopes.assign frame name.lexeme value }

/-- A new identity. -/
def fresh : Eval Nat :=
  modifyGet fun m => (m.nextIdentity, { m with nextIdentity := m.nextIdentity + 1 })

/-- A new list. -/
def newList (items : List Value) : Eval Value := return .list (← fresh) items

/-- A new function. -/
def newFunction (definition : Function) : Eval Value := return .function (← fresh) definition

/-- Prints a line; a refusal of the sink is blamed on the keyword. -/
def print (keyword : Token) (line : String) : Eval Unit := fun m =>
  match m.sink.writeLine line with
  | (.ok (), sink) => .ok () { m with sink }
  | (.error cause, sink) => .error (.failed ⟨.output cause, keyword⟩) { m with sink }

/-- Runs an action and then changes the state, whether the action fails or not. -/
def thenAlways {α : Type} (action : Eval α) (change : Machine → Machine) : Eval α := fun m =>
  match action m with
  | .ok a m => .ok a (change m)
  | .error e m => .error e (change m)

/-- Runs an action with a new frame, which is dropped afterwards. -/
def withFrame {α : Type} (outer : Nat) (bindings : Bindings) (action : Nat → Eval α) : Eval α :=
  fun m =>
    let frame := m.scopes.size
    thenAlways (action frame) (fun m => { m with scopes := m.scopes.truncate frame })
      { m with scopes := m.scopes.push (some outer) bindings }

/-- Runs an action one level deeper. -/
def deeper {α : Type} (action : Eval α) : Eval α := fun m =>
  thenAlways action (fun m => { m with depth := m.depth - 1 }) { m with depth := m.depth + 1 }

/-- Runs an action on each element in turn, up to the first return. -/
def untilReturn {α : Type} (action : α → Eval Flow) : List α → Eval Flow
  | [] => return .next
  | a :: as => do
    match ← action a with
    | .next => untilReturn action as
    | .returned value => return .returned value

/-- Repeats an action while a condition holds, up to the first return. -/
def whileTrue (condition : Eval Bool) (action : Eval Flow) : Nat → Eval Flow
  | 0 => exhausted
  | fuel + 1 => do
    if ← condition then
      match ← action with
      | .next => whileTrue condition action fuel
      | .returned value => return .returned value
    else return .next

/-- Whether counting with a step has not reached the stop. -/
def countsOn (i stop step : Float) : Bool :=
  (step > 0.0 && i < stop) || (step < 0.0 && i > stop)

/-- Runs an action for each number from `i` on in steps up to `stop`, up to the first return. -/
def forNumbers (stop step : Float) (action : Float → Eval Flow) (i : Float) : Nat → Eval Flow
  | 0 => exhausted
  | fuel + 1 => do
    if countsOn i stop step then
      match ← action i with
      | .next => forNumbers stop step action (i + step) fuel
      | .returned value => return .returned value
    else return .next

end Eval

end Offside
