import Offside.Tree.Basic
import Offside.Tree.Reader

/-!
# Reading expressions

The grammar has one level per precedence: assignment, `or`, `and`, equality, comparison, sums,
products, prefix operators, powers, primaries. Every level is written over the expressions that it
may contain; the recursion is tied at the end, with a limit on the depth that is never reached when
it is at least the number of tokens. The same limit bounds the length of operator chains.
-/

namespace Offside.Expr

/-- A binary level of the grammar whose operators group to the left. -/
structure Level where
  /-- The operators of the level. -/
  operators : List Kind
  /-- The node that joins two operands. -/
  join : Expr → Token → Expr → Expr

/-- The left-grouping levels, from the loosest to the tightest. -/
def levels : List Level :=
  [⟨[.keyword .or_], .logical⟩,
    ⟨[.keyword .and_], .logical⟩,
    ⟨[.symbol .bangEqual, .symbol .equalEqual], .binary⟩,
    ⟨[.symbol .greater, .symbol .greaterEqual, .symbol .less, .symbol .lessEqual], .binary⟩,
    ⟨[.symbol .minus, .symbol .plus], .binary⟩,
    ⟨[.symbol .slash, .symbol .star, .symbol .percent], .binary⟩]

/-- The prefix operators. -/
def prefixOperators : List Kind := [.symbol .bang, .symbol .minus]

/-- An operator followed by an operand, if there is one of the given operators. -/
def readTail (operators : List Kind) (operand : Reader Expr) : Reader (Option (Token × Expr)) := do
  match ← Reader.acceptIf operators.contains with
  | none => return none
  | some operator => return some (operator, ← operand)

/-- Operands separated by the operators of a level. -/
def readLevel (limit : Nat) (level : Level) (operand : Reader Expr) : Reader Expr := do
  let first ← operand
  let others ← collect (readTail level.operators operand) [] limit
  return others.foldl (fun left (operator, right) => level.join left operator right) first

/-- Powers group to the right. -/
def joinPowers (first : Expr) : List (Token × Expr) → Expr
  | [] => first
  | (operator, next) :: others => .binary first operator (joinPowers next others)

/-- Primaries separated by the power operator. -/
def readPower (limit : Nat) (primary : Reader Expr) : Reader Expr := do
  let first ← primary
  return joinPowers first (← collect (readTail [.symbol .power] primary) [] limit)

/-- Applies a prefix operator. The negative of a literal zero is the literal zero. -/
def applyPrefix (operator : Token) (operand : Expr) : Expr :=
  match operand with
  | .literal (.number value) =>
    if operator.kind = .symbol .minus ∧ value == 0.0 then .literal (.number 0.0)
    else .unary operator operand
  | _ => .unary operator operand

/-- Prefix operators in front of a power. -/
def readPrefixed (limit : Nat) (primary : Reader Expr) : Reader Expr := do
  let operators ← Reader.takeWhile prefixOperators.contains
  return operators.foldr applyPrefix (← readPower limit primary)

/-- Expressions separated by commas; none at all in front of the closing symbol. -/
def readItems (limit : Nat) (expression : Reader Expr) (closing : Symbol) :
    Reader (List Expr) := do
  if ← Reader.nextIs (.symbol closing) then return []
  let first ← expression
  let others ← collect (readTail [.symbol .comma] expression) [] limit
  return first :: others.map Prod.snd

/-- What stands in brackets behind a name. -/
def readIndex (expression : Reader Expr) (name : Token) : Reader Expr := do
  let start ← expression
  let index ←
    match ← Reader.accept (.symbol .colon) with
    | none => pure (.element name start)
    | some _ => do
      let stop ← expression
      match ← Reader.accept (.symbol .colon) with
      | none => pure (.slice name start stop)
      | some _ => pure (.stride name start stop (← expression))
  let _ ← Reader.expect (.symbol .rightBracket) .indexEnd
  return index

/-- What a name starts: an index, a call, or just the name. -/
def readName (limit : Nat) (expression : Reader Expr) (name : Token) : Reader Expr := do
  if (← Reader.accept (.symbol .leftBracket)).isSome then readIndex expression name
  else if (← Reader.accept (.symbol .leftParen)).isSome then
    let arguments ← readItems limit expression .rightParen
    let _ ← Reader.expect (.symbol .rightParen) .argumentsEnd
    return .call name arguments
  else return .variable name

/-- A primary expression that starts with the given token, which is already consumed. -/
def readPrimaryFrom (limit : Nat) (expression : Reader Expr) (first : Token) :
    Option (Reader Expr) :=
  match first.kind with
  | .keyword .false_ => some (return .literal (.boolean false))
  | .keyword .true_ => some (return .literal (.boolean true))
  | .keyword .none_ => some (return .literal .none)
  | .number value => some (return .literal (.number value))
  | .string contents => some (return .literal (.string contents))
  | .symbol .leftParen => some do
    let inner ← expression
    let _ ← Reader.expect (.symbol .rightParen) .groupEnd
    return .grouping inner
  | .symbol .leftBracket => some do
    let items ← readItems limit expression .rightBracket
    let _ ← Reader.expect (.symbol .rightBracket) .listEnd
    return .list items
  | .identifier => some (readName limit expression first)
  | _ => none

/-- A literal, a group, a list, or what a name starts. -/
def readPrimary (limit : Nat) (expression : Reader Expr) : Reader Expr
  | [] => Reader.fail .expression []
  | t :: ts =>
    match readPrimaryFrom limit expression t with
    | some rest => rest ts
    | none => Reader.fail .expression (t :: ts)

/-- The levels from `or` down to the primaries. -/
def readOperation (limit : Nat) (expression : Reader Expr) : Reader Expr :=
  levels.foldr (readLevel limit) (readPrefixed limit (readPrimary limit expression))

/-- An operation, or an assignment of an expression to a name. -/
def readAssignment (limit : Nat) (expression : Reader Expr) : Reader Expr := do
  let target ← readOperation limit expression
  match ← Reader.accept (.symbol .equal) with
  | none => return target
  | some sign =>
    let value ← expression
    match target with
    | .variable name => return .assign name value
    | _ => throw ⟨.invalidTarget, some sign⟩

/-- An expression that is nested at most `limit` deep. -/
def read : Nat → Reader Expr
  | 0 => Reader.fail .expression
  | limit + 1 => readAssignment limit (read limit)

end Offside.Expr
