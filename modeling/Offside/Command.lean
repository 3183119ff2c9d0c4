import Offside.Session
import Offside.Text.Blank

/-!
# Commands

The settings of a run, and the command line that gives them.
-/

namespace Offside

/-- What a run can be told. -/
structure Settings where
  depthLimit : Nat := Session.defaultDepthLimit
  /-- Report errors with an excerpt of the source. -/
  fancy : Bool := false
  /-- List the tokens first. -/
  listTokens : Bool := false
  /-- Dump the tree first. -/
  dumpTree : Bool := false
  deriving DecidableEq, Repr

/-- What can be wrong with a command line. -/
inductive UsageError where
  | missingCommand
  | unknownCommand (name : String)
  | missingPath (command : String)
  | unknownFlag (flag : String)
  | missingValue (flag : String)
  | invalidDepth (text : String)
  | unexpectedArgument (argument : String)
  deriving DecidableEq, Repr

/-- The wording of a usage error. -/
def UsageError.message : UsageError → String
  | missingCommand => "No command given."
  | unknownCommand name => "Unknown command '" ++ name ++ "'."
  | missingPath command => "Command '" ++ command ++ "' needs a file path."
  | unknownFlag flag => "Unknown option '" ++ flag ++ "'."
  | missingValue flag => "Option '" ++ flag ++ "' needs a value."
  | invalidDepth text => "Invalid call depth '" ++ text ++ "': expected a positive integer."
  | unexpectedArgument argument => "Unexpected argument '" ++ argument ++ "'."

/-- How the commands are used. -/
def usage : String :=
  "Usage: subpy run <file> [--tokens] [--ast] [--fancy] [--max-depth N]\n" ++
    "       subpy test <file> [--max-depth N]"

/-- The environment variable that sets the call depth. -/
def depthVariable : String := "SUBPY_MAX_DEPTH"

namespace Settings

/-- The largest call depth that can be set. -/
def maxDepth : Nat := 0xffffffffffffffff

/-- A positive number of at most 64 bits: digits with an optional plus sign, and blanks around
them. -/
def depth? (text : String) : Option Nat :=
  let trimmed := Text.trim text.toList
  let digits := if trimmed.head? = some '+' then trimmed.drop 1 else trimmed
  if digits.isEmpty || !digits.all Char.isDigit then none
  else
    let depth := Number.digitsValue digits
    if 0 < depth ∧ depth ≤ maxDepth then some depth else none

/-- The settings with the given call depth. -/
def withDepth (s : Settings) (text : String) : Except UsageError Settings :=
  match depth? text with
  | some depthLimit => .ok { s with depthLimit }
  | none => .error (.invalidDepth text)

/-- The default settings, with the call depth of the environment if there is one. -/
def ofEnvironment : Option String → Except UsageError Settings
  | none => .ok {}
  | some text => Settings.withDepth {} text

end Settings

/-- What can be done with a file. -/
inductive Task where
  /-- Run the file as a program. -/
  | run
  /-- Run the file as a batch of cases. -/
  | test
  deriving DecidableEq, Repr

/-- The name of a task on the command line. -/
def Task.name : Task → String
  | run => "run"
  | test => "test"

/-- A task, the file it is for, and its settings. -/
structure Command where
  task : Task
  path : String
  settings : Settings
  deriving DecidableEq, Repr

namespace Command

/-- Reads the arguments behind the name of a task. -/
def parseArguments (task : Task) (path : Option String) (settings : Settings) :
    List String → Except UsageError Command
  | [] =>
    match path with
    | some path => .ok ⟨task, path, settings⟩
    | none => .error (.missingPath task.name)
  | argument :: others =>
    if argument = "--tokens" ∧ task = .run then
      parseArguments task path { settings with listTokens := true } others
    else if argument = "--ast" ∧ task = .run then
      parseArguments task path { settings with dumpTree := true } others
    else if argument = "--fancy" ∧ task = .run then
      parseArguments task path { settings with fancy := true } others
    else if argument = "--max-depth" then
      match others with
      | [] => .error (.missingValue argument)
      | value :: others => do
        parseArguments task path (← settings.withDepth value) others
    else if argument.startsWith "--" then .error (.unknownFlag argument)
    else
      match path with
      | none => parseArguments task (some argument) settings others
      | some _ => .error (.unexpectedArgument argument)

/-- Reads a command line, without the name of the program, on top of some settings. -/
def parse (base : Settings) : List String → Except UsageError Command
  | [] => .error .missingCommand
  | "run" :: others => parseArguments .run none base others
  | "test" :: others => parseArguments .test none base others
  | name :: _ => .error (.unknownCommand name)

/-- Reads a command line on top of what the environment says about the call depth. A fault of the
environment is found first. -/
def ofArguments (depth : Option String) (arguments : List String) : Except UsageError Command := do
  parse (← Settings.ofEnvironment depth) arguments

end Command

end Offside
