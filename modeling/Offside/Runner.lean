import Offside.Batch
import Offside.Command
import Offside.Report
import Offside.Tree.Dump

/-!
# The file runner

What the command line program writes and the exit code it ends with, given the contents of the
file that it is asked for.
-/

namespace Offside.Runner

/-- The exit code for a command line that is not understood. -/
def usageExitCode : UInt32 := 64

/-- The exit code for a file that cannot be read. -/
def inputExitCode : UInt32 := 74

/-- What a process writes, and how it ends. -/
structure Effect where
  output : String
  errors : String
  exitCode : UInt32
  deriving DecidableEq, Repr

/-- Why a file has no text. -/
inductive ReadFault where
  /-- The system cannot read the file, with its words and its number for the reason. -/
  | system (details : String) (code : Nat)
  /-- The file is not UTF-8. -/
  | notText
  deriving DecidableEq, Repr

/-- There is no such file. -/
def ReadFault.missing : ReadFault := .system "no such file or directory" 2

/-- The wording of a read fault. -/
def ReadFault.message : ReadFault → String
  | system details code => details.capitalize ++ " (os error " ++ toString code ++ ")"
  | notText => "stream did not contain valid UTF-8"

/-- The bytes of a file as text. -/
def decodeFile (contents : Except ReadFault ByteArray) : Except ReadFault String := do
  match String.fromUTF8? (← contents) with
  | some text => return text
  | none => throw .notText

/-- The listings that were asked for: tokens, then the tree. -/
def listings (settings : Settings) (source : String) : String :=
  let tokens := (scan source).tokens
  (if settings.listTokens then String.join (tokens.map fun t => t.describe ++ "\n") else "") ++
    (if settings.dumpTree then dumpProgram (parse tokens).program else "")

/-- A diagnostic as the runner writes it. -/
def diagnosticText (settings : Settings) (path source : String) (d : Diagnostic) : String :=
  if settings.fancy then (d.report path source).text else d.text ++ "\n"

/-- Runs a file as a program. -/
def runFile (fuel : Nat) (settings : Settings) (path source : String) : Option Effect := do
  let (outcome, output) ← runAlone fuel settings.depthLimit source
  let errors := outcome.diagnostics.map (diagnosticText settings path source)
  return ⟨listings settings source ++ output, String.join errors, outcome.status.exitCode⟩

/-- Runs a file as a batch of cases. -/
def testFile (fuel : Nat) (settings : Settings) (text : String) : Option Effect := do
  let results ← Batch.run fuel settings.depthLimit text
  return ⟨Batch.report results ++ "\n", "", 0⟩

/-- Performs a command on the contents of its file. -/
def perform (fuel : Nat) (command : Command) (contents : Except ReadFault ByteArray) :
    Option Effect :=
  match decodeFile contents with
  | .error fault =>
    some ⟨"", "Could not read '" ++ command.path ++ "': " ++ fault.message ++ "\n", inputExitCode⟩
  | .ok text =>
    match command.task with
    | .run => runFile fuel command.settings command.path text
    | .test => testFile fuel command.settings text

/-- Refuses a command line. -/
def refuse (e : UsageError) : Effect := ⟨"", e.message ++ "\n" ++ usage ++ "\n", usageExitCode⟩

end Offside.Runner
