import Offside.Console.Dialogue
import Offside.Runner

/-!
# The programs

The executable is the file runner, and the console if it is installed under the name `repl`. All
decisions are made elsewhere; here files are read and text is written.
-/

namespace Offside.Main

/-- More steps than any run can take. -/
def fuel : Nat := 1000000000000000000

/-- Why a file cannot be read. -/
def readFault : IO.Error → Runner.ReadFault
  | .noFileOrDirectory _ _ _ => .missing
  | .permissionDenied _ code details => .system details code.toNat
  | .inappropriateType _ code details => .system details code.toNat
  | e => .system e.toString 0

/-- Reads a file. -/
def readFile (path : String) : IO (Except Runner.ReadFault ByteArray) := do
  try
    return .ok (← IO.FS.readBinFile path)
  catch e => return .error (readFault e)

/-- Writes what a process says. -/
def write (output errors : String) : IO Unit := do
  (← IO.getStdout).putStr output
  (← IO.getStdout).flush
  (← IO.getStderr).putStr errors

/-- Runs a command line. -/
def runner (depth : Option String) (arguments : List String) : IO UInt32 := do
  match Command.ofArguments depth arguments with
  | .error e =>
    let effect := Runner.refuse e
    write effect.output effect.errors
    return effect.exitCode
  | .ok command =>
    match Runner.perform fuel command (← readFile command.path) with
    | none => return 1
    | some effect =>
      write effect.output effect.errors
      return effect.exitCode

/-- Goes on with a dialogue, line by line, until the input ends. -/
partial def converse (d : Console.Dialogue) : IO UInt32 := do
  let line ← (← IO.getStdin).getLine
  if line.isEmpty then
    write Console.farewell ""
    return 0
  match d.turn fuel line.toList with
  | none => return 1
  | some .leave => return 0
  | some (.proceed said d) =>
    write said.output said.errors
    converse d

/-- Runs a dialogue over the standard input. -/
def console (depth : Option String) : IO UInt32 := do
  let (said, d) := Console.opening depth
  write said.output said.errors
  converse d

end Offside.Main

/-- Starts the console or the file runner, by the name of the executable. -/
def main (arguments : List String) : IO UInt32 := do
  let depth ← IO.getEnv Offside.depthVariable
  if (← IO.appPath).fileStem == some "repl" then Offside.Main.console depth
  else Offside.Main.runner depth arguments
