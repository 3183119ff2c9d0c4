import Offside.Machine
import Offside.Value.Operator
import Offside.Value.Selection

/-!
# Evaluation

Expressions and statements are evaluated in a frame. Every form is written over the evaluation of
its parts; the recursion is tied at the end, with an amount of fuel that bounds the nesting of
evaluations and the length of loops. More fuel never changes an answer that was found.
-/

namespace Offside

/-- The evaluation of the parts of an expression or statement, in a given frame. -/
structure Parts where
  eval : Nat → Expr → Eval Value
  exec : Nat → Stmt → Eval Flow

namespace Parts

/-- Evaluates expressions from left to right. -/
def evalEach (p : Parts) (frame : Nat) : List Expr → Eval (List Value)
  | [] => return []
  | e :: es => do
    let value ← p.eval frame e
    return value :: (← p.evalEach frame es)

/-- Executes statements in a frame of their own. -/
def execBlock (p : Parts) (frame : Nat) (body : List Stmt) : Eval Flow :=
  Eval.withFrame frame [] fun inner => Eval.untilReturn (p.exec inner) body

/-- The bindings of parameters to arguments; of equal names the last one counts. -/
def bindParameters (parameters : List Token) (values : List Value) : Bindings :=
  (parameters.zip values).foldl (fun bindings (p, v) => bindings.set p.lexeme v) []

/-- Runs a function body with evaluated arguments. The body sees its parameters and the globals,
and nothing of its caller. -/
def invoke (p : Parts) (name : Token) (f : Function) (values : List Value) : Eval Value := do
  let m ← get
  if m.depthLimit ≤ m.depth then Eval.fail .tooDeep name
  else
    let flow ←
      Eval.withFrame Machine.globalFrame (bindParameters f.parameters values) fun inner =>
        Eval.deeper (Eval.untilReturn (p.exec inner) f.body)
    return flow.result

/-- Calls a function by name. -/
def call (p : Parts) (frame : Nat) (name : Token) (arguments : List Expr) : Eval Value := do
  match ← Eval.lookup frame name with
  | .function _ f =>
    if arguments.length ≠ f.parameters.length then
      Eval.fail (.arityMismatch f.parameters.length arguments.length) name
    else
      let values ← p.evalEach frame arguments
      p.invoke name f values
  | _ => Eval.fail .notCallable name

/-- Evaluates a position in a list or string. -/
def position (p : Parts) (frame : Nat) (name : Token) (e : Expr) : Eval Int := do
  match Selection.position? (← p.eval frame e) with
  | some i => return i
  | none => Eval.fail .invalidIndex name

/-- Evaluates a bound of a counting loop. -/
def bound (p : Parts) (frame : Nat) (name : Token) (e : Expr) : Eval Float := do
  match ← p.eval frame e with
  | .number x => return x
  | _ => Eval.fail .invalidRangeBound name

/-- Evaluates a bound of a counting loop that may be left out. -/
def boundOr (p : Parts) (frame : Nat) (name : Token) (otherwise : Float) :
    Option Expr → Eval Float
  | none => return otherwise
  | some e => p.bound frame name e

end Parts

/-- The element of a list or string at a position. -/
def Value.element (name : Token) (target : Value) (position : Int) : Eval Value :=
  match target with
  | .list _ items => .ofExcept ((Selection.element items position).mapError (⟨·, name⟩))
  | .string contents =>
    match Selection.element contents.toList position with
    | .ok c => return .string (String.singleton c)
    | .error fault => Eval.fail fault name
  | _ => Eval.fail .notIndexable name

/-- A slice of a list or string. -/
def Value.slice (name : Token) (target : Value) (start stop step : Int) : Eval Value :=
  match target with
  | .list _ items =>
    match Selection.slice items start stop step with
    | .ok found => Eval.newList found
    | .error fault => Eval.fail fault name
  | .string contents =>
    match Selection.slice contents.toList start stop step with
    | .ok found => return .string (String.ofList found)
    | .error fault => Eval.fail fault name
  | _ => Eval.fail .notIndexable name

/-- The values that a loop over elements visits. -/
def Value.elements? : Value → Option (List Value)
  | .list _ items => some items
  | .string contents => some (contents.toList.map fun c => .string (String.singleton c))
  | _ => Option.none

/-- Whether the left operand of a conjunction or disjunction decides it. -/
def Value.decides (operator : Token) (left : Value) : Bool :=
  if operator.kind = .keyword .or_ then left.isTruthy else !left.isTruthy

/-- Evaluates an expression over the evaluation of its parts. -/
def Expr.evalWith (p : Parts) (frame : Nat) : Expr → Eval Value
  | .literal value => return Value.ofLiteral value
  | .variable name => Eval.lookup frame name
  | .grouping inner => p.eval frame inner
  | .unary operator operand => do
    Eval.ofExcept (Value.unary operator (← p.eval frame operand))
  | .binary left operator right => do
    let left ← p.eval frame left
    let right ← p.eval frame right
    Eval.ofExcept (Value.binary operator left right)
  | .logical left operator right => do
    let left ← p.eval frame left
    if left.decides operator then return left else p.eval frame right
  | .assign name value => do
    let value ← p.eval frame value
    Eval.assign frame name value
    return value
  | .list items => do Eval.newList (← p.evalEach frame items)
  | .element name position => do
    let target ← Eval.lookup frame name
    Value.element name target (← p.position frame name position)
  | .slice name start stop => do
    let target ← Eval.lookup frame name
    let start ← p.position frame name start
    let stop ← p.position frame name stop
    Value.slice name target start stop 1
  | .stride name start stop step => do
    let target ← Eval.lookup frame name
    let start ← p.position frame name start
    let stop ← p.position frame name stop
    let step ← p.position frame name step
    Value.slice name target start stop step
  | .call name arguments => p.call frame name arguments

/-- Executes the clauses of a branch whose condition did not hold. -/
def Alternative.execWith (p : Parts) (frame : Nat) : Alternative → Eval Flow
  | .nothing => return .next
  | .another condition body otherwise => do
    if (← p.eval frame condition).isTruthy then p.execBlock frame body
    else otherwise.execWith p frame
  | .last body => p.execBlock frame body

/-- Executes a statement over the evaluation of its parts. -/
def Stmt.execWith (fuel : Nat) (p : Parts) (frame : Nat) : Stmt → Eval Flow
  | .expression value => do
    let _ ← p.eval frame value
    return .next
  | .print keyword value => do
    let value ← p.eval frame value
    Eval.print keyword value.text
    return .next
  | .assign name value => do
    let value ← p.eval frame value
    Eval.assign frame name value
    return .next
  | .block body => p.execBlock frame body
  | .branch condition body otherwise => do
    if (← p.eval frame condition).isTruthy then p.execBlock frame body
    else otherwise.execWith p frame
  | .loop condition body =>
    Eval.whileTrue (Value.isTruthy <$> p.eval frame condition) (p.execBlock frame body) fuel
  | .forRange name start stop step body => do
    let start ← p.boundOr frame name 0.0 start
    let stop ← p.bound frame name stop
    let step ← p.boundOr frame name 1.0 step
    if step == 0.0 then Eval.fail .zeroRangeStep name
    else
      let action (i : Float) : Eval Flow := do
        Eval.assign frame name (.number i)
        p.execBlock frame body
      Eval.forNumbers stop step action start fuel
  | .forEach name iterable body => do
    match (← p.eval frame iterable).elements? with
    | none => Eval.fail .notIterable name
    | some items =>
      let action (item : Value) : Eval Flow := do
        Eval.assign frame name item
        p.execBlock frame body
      Eval.untilReturn action items
  | .define name parameters body => do
    Eval.assign frame name (← Eval.newFunction ⟨name, parameters, body⟩)
    return .next
  | .return _ value =>
    match value with
    | none => return .returned .none
    | some e => return .returned (← p.eval frame e)

mutual

/-- Evaluates an expression in a frame. -/
def Expr.eval : Nat → Nat → Expr → Eval Value
  | 0 => fun _ _ => Eval.exhausted
  | fuel + 1 => fun frame e => e.evalWith ⟨Expr.eval fuel, Stmt.exec fuel⟩ frame

/-- Executes a statement in a frame. -/
def Stmt.exec : Nat → Nat → Stmt → Eval Flow
  | 0 => fun _ _ => Eval.exhausted
  | fuel + 1 => fun frame s => s.execWith fuel ⟨Expr.eval fuel, Stmt.exec fuel⟩ frame

end

/-- Runs a program in the global frame, up to its end, a return outside every function, or an
error. -/
def interpret (fuel : Nat) (program : List Stmt) : Eval Unit := do
  modify fun m => { m with depth := 0 }
  let _ ← Eval.untilReturn (Stmt.exec fuel Machine.globalFrame) program

end Offside
