import Offside.Command
import Offside.Console.Entry

/-!
# Console dialogues

A console reads lines, puts them together to entries, and runs the entries in one session. What is
said is a function of the lines.
-/

namespace Offside.Console

/-- What a process has written. -/
structure Transcript where
  output : String := ""
  errors : String := ""
  deriving DecidableEq, Repr

/-- What one transcript says, followed by what another one says. -/
def Transcript.append (t u : Transcript) : Transcript :=
  ⟨t.output ++ u.output, t.errors ++ u.errors⟩

instance : Append Transcript := ⟨Transcript.append⟩

/-- What is said at the start. -/
def banner : String :=
  "subpy REPL v0.1.0\n" ++
    "Type 'exit' or press Ctrl-D to quit. End a block with an empty line.\n" ++
    "No previous history.\n"

/-- What is said when the input ends. -/
def farewell : String := "\nExiting.\n"

/-- What comes of adding a line to the pending input. -/
inductive Reading where
  /-- The input is an entry. -/
  | entry (source : List Char)
  /-- The input goes on, after a message. -/
  | pending (input : List Char) (message : String)

/-- Adds a line to the pending input. A bracket that closes nothing is reported, and the input is
kept without its line ending. -/
def readLine (pending line : List Char) : Reading :=
  let (input, ending) := Text.splitEnding (pending ++ line)
  match judge input with
  | .complete => .entry input
  | .incomplete => .pending (input ++ ending) ""
  | .unmatched bracket offset => .pending input (unmatchedMessage bracket offset)

/-- Whether an entry asks to leave. -/
def asksToLeave (trimmed : List Char) : Bool := trimmed.map Char.toLower == "exit".toList

/-- Where a dialogue stands between two lines. -/
structure Dialogue where
  session : Session
  /-- The input that is no complete entry yet. -/
  pending : List Char := []

/-- What comes of a line. -/
inductive Reply where
  /-- The console closes. -/
  | leave
  /-- Something is said, and the dialogue goes on. -/
  | proceed (said : Transcript) (dialogue : Dialogue)

/-- Runs an entry. Diagnostics go to the error output, one per line. -/
def answer (fuel : Nat) (session : Session) (entry : List Char) : Option Reply :=
  let trimmed := Text.trim entry
  if trimmed.isEmpty then some (.proceed {} { session })
  else if asksToLeave trimmed then some .leave
  else do
    let (outcome, after) ← session.run fuel (String.ofList entry)
    let errors := outcome.diagnostics.map fun d => d.text ++ "\n"
    return .proceed ⟨after.textFrom session.printed, String.join errors⟩ { session := after }

/-- Reads a line, and runs the entry that it completes. -/
def Dialogue.turn (fuel : Nat) (d : Dialogue) (line : List Char) : Option Reply :=
  match readLine d.pending line with
  | .pending input message => some (.proceed ⟨"", message⟩ { d with pending := input })
  | .entry source => answer fuel d.session source

/-- What is said over the lines that are left, behind what was said before. An input that is
pending at the end is lost. -/
def converse (fuel : Nat) (said : Transcript) (d : Dialogue) :
    List (List Char) → Option Transcript
  | [] => some (said ++ ⟨farewell, ""⟩)
  | line :: lines => do
    match ← d.turn fuel line with
    | .leave => return said
    | .proceed reply d => converse fuel (said ++ reply) d lines

/-- The settings of a console. A fault of the environment is reported and otherwise ignored. -/
def settings (depth : Option String) : Settings × String :=
  match Settings.ofEnvironment depth with
  | .ok settings => (settings, "")
  | .error e => ({}, e.message ++ "\n")

/-- The start of a dialogue, given what the environment says about the call depth. -/
def opening (depth : Option String) : Transcript × Dialogue :=
  let (settings, complaint) := settings depth
  (⟨banner, complaint⟩, { session := .new settings.depthLimit {} })

/-- What is said in a dialogue over a whole input. -/
def dialogue (fuel : Nat) (depth : Option String) (input : String) : Option Transcript :=
  let (said, d) := opening depth
  converse fuel said d (Text.rows input.toList)

end Offside.Console
