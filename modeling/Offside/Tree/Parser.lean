import Offside.Tree.ExprReader
import Offside.Token.Layout

/-!
# Reading programs

Statements are read one after the other. After an error the parser records it, skips to a place
where a statement may start, and goes on, so that one pass finds every independent error.
-/

namespace Offside

/-- Where parsing stands. -/
structure Parsing where
  /-- The tokens that are not consumed yet, without the end of the input. -/
  rest : List Token
  /-- The errors recorded so far, the latest first. -/
  errors : List SyntaxError

/-- A reader that can also record errors and go on. -/
abbrev Parser := EStateM SyntaxError Parsing

/-- A reader as a parser: it records nothing. -/
def Parser.ofReader {α : Type} (r : Reader α) : Parser α := fun s =>
  match r s.rest with
  | .ok a rest => .ok a { s with rest }
  | .error e rest => .error e { s with rest }

instance : MonadLift Reader Parser := ⟨Parser.ofReader⟩

namespace Stmt

/-- Whether a token may start the statement at which parsing resumes behind an error. -/
def resumesAt : Kind → Bool
  | .keyword .if_ | .keyword .while_ | .keyword .for_ | .keyword .return_ | .keyword .print_
  | .identifier | .dedent => true
  | _ => false

/-- The tokens from the next place where a statement may start, behind an already skipped one. -/
def resumeAfter (skipped : Token) : List Token → List Token
  | [] => []
  | t :: ts =>
    if skipped.kind = .newline ∨ resumesAt t.kind then t :: ts else resumeAfter t ts

/-- Skips at least one token, up to the next place where a statement may start. -/
def resume : List Token → List Token
  | [] => []
  | t :: ts => resumeAfter t ts

/-- Reads a statement. After an error, records it, skips what is left of the statement, and yields
nothing. -/
def recover (statement : Parser Stmt) : Parser (Option Stmt) := fun s =>
  match statement s with
  | .ok stmt s => .ok (some stmt) s
  | .error e s => .ok none ⟨resume s.rest, e :: s.errors⟩

/-- The next statement of a sequence that ends at a token for which `stop` holds, or at the end of
the input. -/
def readNext (stop : Kind → Bool) (statement : Parser Stmt) : Parser (Option (Option Stmt)) := do
  Reader.skipNewlines
  match (← get).rest with
  | [] => return none
  | t :: _ => if stop t.kind then return none else return some (← recover statement)

/-- The statements up to a token for which `stop` holds, or up to the end of the input. -/
def readSequence (limit : Nat) (stop : Kind → Bool) (statement : Parser Stmt) :
    Parser (List Stmt) := do
  let found ← collect (readNext stop statement) [] limit
  return found.filterMap id

/-- An indented block. -/
def readBlock (limit : Nat) (statement : Parser Stmt) : Parser (List Stmt) := do
  Reader.skipNewlines
  let _ ← Reader.expect .indent .blockStart
  let body ← readSequence limit (· == .dedent) statement
  let _ ← Reader.expect .dedent .blockEnd
  return body

/-- The colon and line end that introduce a block, and the block. -/
def readBody (limit : Nat) (statement : Parser Stmt) (header : Header) : Parser (List Stmt) := do
  let _ ← Reader.expect (.symbol .colon) (.colon header)
  let _ ← Reader.expect .newline (.lineEnd header)
  readBlock limit statement

/-- The further clauses of a branch, at most `count` of them. -/
def readAlternative (limit : Nat) (statement : Parser Stmt) : Nat → Parser Alternative
  | 0 => return .nothing
  | count + 1 => do
    if (← Reader.accept (.keyword .elif_)).isSome then
      let condition ← Expr.read limit
      let body ← readBody limit statement .elif_
      return .another condition body (← readAlternative limit statement count)
    else if (← Reader.accept (.keyword .else_)).isSome then
      return .last (← readBody limit statement .else_)
    else return .nothing

/-- A branch, behind its keyword. -/
def readBranch (limit : Nat) (statement : Parser Stmt) : Parser Stmt := do
  let condition ← Expr.read limit
  let body ← readBody limit statement .if_
  return .branch condition body (← readAlternative limit statement limit)

/-- A conditional loop, behind its keyword. -/
def readLoop (limit : Nat) (statement : Parser Stmt) : Parser Stmt := do
  let condition ← Expr.read limit
  return .loop condition (← readBody limit statement .while_)

/-- The bounds of a counting loop: `stop`, or `start, stop`, or `start, stop, step`. -/
def readRange (limit : Nat) : Reader (Option Expr × Expr × Option Expr) := do
  let _ ← Reader.expect (.symbol .leftParen) .rangeStart
  let first ← Expr.read limit
  let bounds ←
    match ← Reader.accept (.symbol .comma) with
    | none => pure (none, first, none)
    | some _ => do
      let second ← Expr.read limit
      match ← Reader.accept (.symbol .comma) with
      | none => pure (some first, second, none)
      | some _ => pure (some first, second, some (← Expr.read limit))
  let _ ← Reader.expect (.symbol .rightParen) .rangeEnd
  return bounds

/-- A counting loop or a loop over elements, behind its keyword. -/
def readFor (limit : Nat) (statement : Parser Stmt) : Parser Stmt := do
  let name ← Reader.expect .identifier .loopVariable
  let _ ← Reader.expect (.keyword .in_) .loopIn
  match ← Reader.accept (.keyword .range_) with
  | none =>
    let iterable ← Expr.read limit
    return .forEach name iterable (← readBody limit statement .for_)
  | some _ =>
    let (start, stop, step) ← readRange limit
    return .forRange name start stop step (← readBody limit statement .for_)

/-- A comma and a parameter name, if there is a comma. -/
def readParameterTail : Reader (Option Token) := do
  match ← Reader.accept (.symbol .comma) with
  | none => return none
  | some _ => return some (← Reader.expect .identifier .parameterName)

/-- Parameter names separated by commas; none at all in front of the closing parenthesis. -/
def readParameterNames (limit : Nat) : Reader (List Token) := do
  if ← Reader.nextIs (.symbol .rightParen) then return []
  let first ← Reader.expect .identifier .parameterName
  return first :: (← collect readParameterTail [] limit)

/-- The parameters of a function, in parentheses. -/
def readParameters (limit : Nat) : Reader (List Token) := do
  let _ ← Reader.expect (.symbol .leftParen) .parametersStart
  let names ← readParameterNames limit
  let _ ← Reader.expect (.symbol .rightParen) .parametersEnd
  return names

/-- A function definition, behind its keyword. -/
def readDefinition (limit : Nat) (statement : Parser Stmt) : Parser Stmt := do
  let name ← Reader.expect .identifier .functionName
  let parameters ← readParameters limit
  return .define name parameters (← readBody limit statement .def_)

/-- A return, behind its keyword. It has no value at the end of a line, of a block or of the
input. -/
def readReturn (limit : Nat) (keyword : Token) : Reader Stmt := do
  let value ←
    match (← get).head?.map Token.kind with
    | none | some .newline | some .dedent => pure none
    | some _ => some <$> Expr.read limit
  Reader.skipNewlines
  return .return keyword value

/-- A print, behind its keyword. -/
def readPrint (limit : Nat) (keyword : Token) : Reader Stmt := do
  let _ ← Reader.expect (.symbol .leftParen) .printStart
  let value ← Expr.read limit
  let _ ← Reader.expect (.symbol .rightParen) .printEnd
  Reader.skipNewlines
  return .print keyword value

/-- An assignment, behind the name. -/
def readAssign (limit : Nat) (name : Token) : Reader Stmt := do
  let _ ← Reader.expect (.symbol .equal) .assignmentSign
  let value ← Expr.read limit
  Reader.skipNewlines
  return .assign name value

/-- An expression as a statement. -/
def readExpression (limit : Nat) : Reader Stmt := do
  let value ← Expr.read limit
  Reader.skipNewlines
  return .expression value

/-- A statement over the statements that its blocks may contain. The first token decides its form;
a name starts an assignment only if an equals sign follows it. -/
def readForm (limit : Nat) (statement : Parser Stmt) : Parser Stmt := fun s =>
  let behind (form : Parser Stmt) : EStateM.Result SyntaxError Parsing Stmt :=
    form { s with rest := s.rest.drop 1 }
  match s.rest with
  | [] => Parser.ofReader (readExpression limit) s
  | t :: ts =>
    match t.kind with
    | .keyword .if_ => behind (readBranch limit statement)
    | .keyword .while_ => behind (readLoop limit statement)
    | .keyword .for_ => behind (readFor limit statement)
    | .keyword .def_ => behind (readDefinition limit statement)
    | .keyword .return_ => behind (readReturn limit t)
    | .keyword .print_ => behind (readPrint limit t)
    | .indent => (Stmt.block <$> readBlock limit statement) s
    | .identifier =>
      if ts.head?.any (·.kind == .symbol .equal) then behind (readAssign limit t)
      else Parser.ofReader (readExpression limit) s
    | _ => Parser.ofReader (readExpression limit) s

/-- A statement that is nested at most `limit` deep. -/
def read : Nat → Parser Stmt
  | 0 => Parser.ofReader (Reader.fail .expression)
  | limit + 1 => readForm limit (read limit)

end Stmt

/-- A parsed token stream. -/
structure Parse where
  /-- The statements that could be read. -/
  program : List Stmt
  errors : List SyntaxError
  /-- The token that ends the input. -/
  finish : Token

/-- The token that ends a stream without one: at the end of the last token. -/
def missingEnd (ts : List Token) : Token :=
  match ts.getLast? with
  | none => ⟨.endOfInput, "", 1, .point 0⟩
  | some t => ⟨.endOfInput, "", t.line, .point t.span.stop⟩

/-- Parses a token stream up to its first end of input. Parsing never stops at an error. -/
def parse (tokens : List Token) : Parse :=
  let body := tokens.takeWhile (·.kind != .endOfInput)
  let finish := (tokens.find? (·.kind == .endOfInput)).getD (missingEnd tokens)
  let limit := body.length + 1
  match Stmt.readSequence limit (fun _ => false) (Stmt.read limit) ⟨body, []⟩ with
  | .ok program s => ⟨program, s.errors.reverse, finish⟩
  | .error e s => ⟨[], (e :: s.errors).reverse, finish⟩

/-- The syntax errors as they are reported. -/
def Parse.diagnostics (p : Parse) : List Diagnostic :=
  p.errors.map (SyntaxError.diagnostic p.finish)

/-- A source text that was scanned and parsed. -/
structure Checked where
  program : List Stmt
  /-- All lexical errors, then all syntax errors. -/
  diagnostics : List Diagnostic

/-- Scans and parses a source text. -/
def check (source : String) : Checked :=
  let scanned := scan source
  let parsed := parse scanned.tokens
  ⟨parsed.program, scanned.errors.map LexicalError.diagnostic ++ parsed.diagnostics⟩

end Offside
