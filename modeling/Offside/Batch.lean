import Offside.Session
import Offside.Text.Blank
import Offside.Text.Rows

/-!
# Batches of cases

A batch is a text with one case per line: a source text, a comma, and what it is expected to print.
Every case runs on its own. Lines of any other form are skipped.
-/

namespace Offside.Batch

/-- A source text and what it is expected to print. -/
structure Case where
  source : String
  expected : String
  deriving DecidableEq, Repr

/-- The fields of a line, between its commas. -/
def fields : List Char → List (List Char)
  | [] => [[]]
  | c :: cs =>
    if c = ',' then [] :: fields cs
    else
      match fields cs with
      | [] => [[c]]
      | field :: others => (c :: field) :: others

/-- The fields without the empty ones at the end. -/
def usedFields (line : List Char) : List (List Char) :=
  ((fields line).reverse.dropWhile List.isEmpty).reverse

/-- The case on a line, if it has exactly two fields. -/
def case? (line : List Char) : Option Case :=
  match usedFields line with
  | [source, expected] =>
    some ⟨String.ofList (Text.trim source), String.ofList (Text.trim expected)⟩
  | _ => none

/-- The cases of a text. -/
def cases (text : String) : List Case := (Text.lines text.toList).filterMap case?

/-- A case and what it printed. -/
structure Result where
  case : Case
  actual : String
  deriving DecidableEq, Repr

/-- Whether a case printed what it was expected to. -/
def Result.passed (r : Result) : Bool := r.actual == r.case.expected

/-- The line of the report for a case. -/
def Result.text (r : Result) : String :=
  if r.passed then "PASS: " ++ r.case.source ++ " = " ++ r.case.expected
  else
    "FAIL: " ++ r.case.source ++ ", expected " ++ r.case.expected ++ " but got " ++ r.actual

/-- What a source prints, without blanks around it, or a message if it cannot be run. -/
def actual (fuel depthLimit : Nat) (source : String) : Option String := do
  let (outcome, output) ← runAlone fuel depthLimit source
  if outcome.status = .staticError then
    return "Error scanning/parsing the expression: " ++ source
  else return Text.trimString output

/-- Runs one case. -/
def Case.run (fuel depthLimit : Nat) (c : Case) : Option Result := do
  return ⟨c, ← actual fuel depthLimit c.source⟩

/-- Runs all cases of a text, in order. -/
def run (fuel depthLimit : Nat) (text : String) : Option (List Result) :=
  (cases text).mapM (Case.run fuel depthLimit)

/-- The number of cases that passed. -/
def passedCount (results : List Result) : Nat := results.countP Result.passed

/-- The report on a batch. -/
def report (results : List Result) : String :=
  String.join (results.map fun r => r.text ++ "\n") ++
    "Tests passed: " ++ toString (passedCount results) ++ " / " ++ toString results.length

end Offside.Batch
