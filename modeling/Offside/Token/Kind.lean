import Offside.Number.Decimal
import Offside.Text.Span

/-!
# Tokens

The vocabulary of the language: symbols, keywords, names, literals, line ends, and the tokens that
stand for a change of indentation and for the end of the input.
-/

namespace Offside

/-- Operators, brackets and punctuation. -/
inductive Symbol where
  | leftParen | rightParen | leftBracket | rightBracket | leftBrace | rightBrace
  | comma | dot | colon
  | minus | plus | slash | star | power | percent
  | bang | bangEqual | equal | equalEqual | greater | greaterEqual | less | lessEqual
  deriving DecidableEq, Repr

/-- The characters that spell a symbol. -/
def Symbol.text : Symbol → String
  | leftParen => "("
  | rightParen => ")"
  | leftBracket => "["
  | rightBracket => "]"
  | leftBrace => "\x7b"
  | rightBrace => "\x7d"
  | comma => ","
  | dot => "."
  | colon => ":"
  | minus => "-"
  | plus => "+"
  | slash => "/"
  | star => "*"
  | power => "**"
  | percent => "%"
  | bang => "!"
  | bangEqual => "!="
  | equal => "="
  | equalEqual => "=="
  | greater => ">"
  | greaterEqual => ">="
  | less => "<"
  | lessEqual => "<="

/-- Whether a symbol opens a bracket. -/
def Symbol.opens : Symbol → Bool
  | leftParen | leftBracket | leftBrace => true
  | _ => false

/-- Whether a symbol closes a bracket. -/
def Symbol.closes : Symbol → Bool
  | rightParen | rightBracket | rightBrace => true
  | _ => false

/-- The reserved words. -/
inductive Keyword where
  | and_ | or_ | if_ | elif_ | else_ | while_ | for_ | in_ | range_ | def_ | return_ | print_
  | true_ | false_ | none_
  deriving DecidableEq, Repr

namespace Keyword

/-- The letters of a reserved word. -/
def text : Keyword → String
  | and_ => "and"
  | or_ => "or"
  | if_ => "if"
  | elif_ => "elif"
  | else_ => "else"
  | while_ => "while"
  | for_ => "for"
  | in_ => "in"
  | range_ => "range"
  | def_ => "def"
  | return_ => "return"
  | print_ => "print"
  | true_ => "True"
  | false_ => "False"
  | none_ => "None"

/-- Every reserved word. -/
def all : List Keyword :=
  [and_, or_, if_, elif_, else_, while_, for_, in_, range_, def_, return_, print_,
    true_, false_, none_]

/-- No reserved word is missing from the list. -/
theorem mem_all (k : Keyword) : k ∈ all := by
  cases k <;> decide

/-- Whether a reserved word is the name of a constant. -/
def isConstant : Keyword → Bool
  | true_ | false_ | none_ => true
  | _ => false

/-- The reserved word with the given letters. -/
def ofText? (word : String) : Option Keyword := all.find? fun k => k.text == word

end Keyword

/-- What a token is; literals carry their value. -/
inductive Kind where
  | symbol (s : Symbol)
  | keyword (k : Keyword)
  | identifier
  | string (contents : String)
  | number (value : Float)
  | newline
  /-- The first token of a line stands deeper than the enclosing block. -/
  | indent
  /-- One level of indentation ends. -/
  | dedent
  | endOfInput
  deriving DecidableEq

instance : Inhabited Kind := ⟨.endOfInput⟩

/-- How a kind is named in a token listing. -/
def Kind.describe : Kind → String
  | symbol s => "'" ++ s.text ++ "'"
  | keyword k => "'" ++ k.text ++ "'"
  | identifier => "identifier"
  | string contents => "string \"" ++ contents ++ "\""
  | number value => "number " ++ Number.text .listing value
  | newline => "newline"
  | indent => "indent"
  | dedent => "dedent"
  | endOfInput => "end of input"

/-- A token together with its place in the source. -/
structure Token where
  kind : Kind
  /-- The text that error messages quote. -/
  lexeme : String
  /-- The line on which the token starts, counted from one. -/
  line : Nat
  span : Span
  deriving DecidableEq, Inhabited

/-- One line of a token listing. -/
def Token.describe (t : Token) : String :=
  "[line " ++ toString t.line ++ "] " ++ t.kind.describe ++ " '" ++ t.lexeme ++ "'"

end Offside
