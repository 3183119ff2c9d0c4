import Offside.Evaluation
import Offside.Tree.Parser

/-!
# Sessions

A session runs one source text after the other. Global names, the sink and the identities that were
given out persist; diagnostics belong to a single run. A source with a lexical or syntax error is
not run at all.
-/

namespace Offside

/-- How a run ended. -/
inductive Status where
  | success
  /-- There were lexical or syntax errors, and nothing was executed. -/
  | staticError
  | runtimeError
  deriving DecidableEq, Repr

/-- The exit code of a process that runs one source. -/
def Status.exitCode : Status → UInt32
  | success => 0
  | staticError => 65
  | runtimeError => 70

/-- What a run reports. -/
structure Outcome where
  status : Status
  diagnostics : List Diagnostic
  deriving DecidableEq, Repr

/-- Whether a lexical or syntax error was reported. -/
def Outcome.hadError (o : Outcome) : Bool := o.diagnostics.any Diagnostic.isStatic

/-- Whether a runtime error was reported. -/
def Outcome.hadRuntimeError (o : Outcome) : Bool := o.diagnostics.any (!·.isStatic)

/-- What persists between the runs of a session. -/
structure Session where
  machine : Machine

namespace Session

/-- The largest call depth where none is set. -/
def defaultDepthLimit : Nat := 1000

/-- A session in which nothing has run. -/
def new (depthLimit : Nat) (sink : Sink) : Session := ⟨{ depthLimit, sink }⟩

/-- The global bindings. -/
def globals (s : Session) : Bindings := s.machine.globals

/-- The number of bytes printed so far. -/
def printed (s : Session) : Nat := s.machine.sink.written.size

/-- The text printed since there were `start` bytes. -/
def textFrom (s : Session) (start : Nat) : String := s.machine.sink.textFrom start

/-- Runs a source text. There is no result if the fuel does not suffice. -/
def run (fuel : Nat) (s : Session) (source : String) : Option (Outcome × Session) :=
  let checked := check source
  if checked.diagnostics.isEmpty then
    match interpret fuel checked.program s.machine with
    | .ok () machine => some (⟨.success, []⟩, ⟨machine⟩)
    | .error (.failed e) machine => some (⟨.runtimeError, [e.diagnostic]⟩, ⟨machine⟩)
    | .error .exhausted _ => none
  else some (⟨.staticError, checked.diagnostics⟩, s)

end Session

/-- What a source text prints when it is run on its own, and what it reports. -/
def runAlone (fuel depthLimit : Nat) (source : String) : Option (Outcome × String) := do
  let (outcome, session) ← (Session.new depthLimit {}).run fuel source
  return (outcome, session.textFrom 0)

end Offside
