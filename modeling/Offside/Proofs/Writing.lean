import Mathlib.Data.List.Forall2
import Offside.Tree.Basic

/-!
# Writing programs as tokens

The tokens of a program in the order of the grammar. The tree keeps some of them itself; of the
others only the kind is fixed. A program is canonical if parentheses stand where the precedence of
the operators needs them, and every token that it keeps is of the kind that its place asks for.
-/

namespace Offside

/-- A place in a written program: a token that the tree keeps, or any token of a kind. -/
inductive Slot where
  | exactly (t : Token)
  | any (kind : Kind)

/-- Whether a token may stand in a place. -/
def Slot.Fits : Slot → Token → Prop
  | exactly t, u => u = t
  | any kind, u => u.kind = kind

/-- Any token of the kind fits an open slot. -/
@[simp] theorem Slot.fits_any {kind : Kind} {t : Token} :
    (Slot.any kind).Fits t ↔ t.kind = kind := Iff.rfl

/-- Tokens that may stand in the given places. -/
abbrev Fill : List Slot → List Token → Prop := List.Forall₂ Slot.Fits

/-- A place for a symbol. -/
abbrev Slot.symbol (s : Symbol) : Slot := .any (.symbol s)

/-- A place for a reserved word. -/
abbrev Slot.keyword (k : Keyword) : Slot := .any (.keyword k)

/-- The kind of token that spells out a constant. -/
def Literal.kind : Literal → Kind
  | .number value => .number value
  | .string contents => .string contents
  | .boolean true => .keyword .true_
  | .boolean false => .keyword .false_
  | .none => .keyword .none_

/-- How tight the operators of the language bind, in the order of the grammar: an equals sign binds
loosest and a power tightest. Signs in front of an operand bind less tight than a power. -/
def Kind.precedence? : Kind → Option Nat
  | .symbol .equal => some 0
  | .keyword .or_ => some 1
  | .keyword .and_ => some 2
  | .symbol .bangEqual | .symbol .equalEqual => some 3
  | .symbol .greater | .symbol .greaterEqual | .symbol .less | .symbol .lessEqual => some 4
  | .symbol .minus | .symbol .plus => some 5
  | .symbol .slash | .symbol .star | .symbol .percent => some 6
  | .symbol .power => some 8
  | _ => none

namespace Expr

/-- The precedence of a sign in front of an operand. -/
def signRank : Nat := 7

/-- The precedence of a power. -/
def powerRank : Nat := 8

/-- The precedence of literals, names, calls and what stands in brackets. -/
def primaryRank : Nat := 9

/-- How tight an expression binds as a whole. -/
def rank : Expr → Nat
  | .assign _ _ => 0
  | .binary _ operator _ | .logical _ operator _ => operator.kind.precedence?.getD 0
  | .unary _ _ => signRank
  | _ => primaryRank

/-- Whether an expression is a literal zero. -/
def isZero : Expr → Bool
  | .literal (.number value) => value == 0.0
  | _ => false

/-- Whether an expression is an assignment. -/
def isAssignment : Expr → Bool
  | .assign _ _ => true
  | _ => false

mutual

/-- Whether the operands of every operator bind tight enough to be written without further
parentheses, and the tokens are of the kinds that their places ask for. -/
def isCanonical : Expr → Bool
  | .literal _ => true
  | .variable name => name.kind == .identifier
  | .grouping inner => inner.isCanonical
  | .unary operator operand =>
    (operator.kind == .symbol .bang || operator.kind == .symbol .minus) && operand.isCanonical &&
      decide (signRank ≤ operand.rank) && !(operator.kind == .symbol .minus && operand.isZero)
  | .binary left operator right =>
    left.isCanonical && right.isCanonical &&
      match operator.kind.precedence? with
      | some 8 => decide (left.rank = primaryRank) && decide (powerRank ≤ right.rank)
      | some r => decide (3 ≤ r) && decide (r ≤ left.rank) && decide (r < right.rank)
      | none => false
  | .logical left operator right =>
    left.isCanonical && right.isCanonical &&
      match operator.kind with
      | .keyword .or_ => decide (1 ≤ left.rank) && decide (1 < right.rank)
      | .keyword .and_ => decide (2 ≤ left.rank) && decide (2 < right.rank)
      | _ => false
  | .assign name value => name.kind == .identifier && value.isCanonical
  | .list items => areCanonical items
  | .element name position => name.kind == .identifier && position.isCanonical
  | .slice name start stop => name.kind == .identifier && start.isCanonical && stop.isCanonical
  | .stride name start stop step =>
    name.kind == .identifier && start.isCanonical && stop.isCanonical && step.isCanonical
  | .call name arguments => name.kind == .identifier && areCanonical arguments

/-- Whether several expressions are canonical. -/
def areCanonical : List Expr → Bool
  | [] => true
  | e :: es => e.isCanonical && areCanonical es

end

mutual

/-- The places of an expression. -/
def write : Expr → List Slot
  | .literal value => [.any value.kind]
  | .variable name => [.exactly name]
  | .grouping inner => .symbol .leftParen :: (inner.write ++ [.symbol .rightParen])
  | .unary operator operand => .exactly operator :: operand.write
  | .binary left operator right | .logical left operator right =>
    left.write ++ .exactly operator :: right.write
  | .assign name value => .exactly name :: .symbol .equal :: value.write
  | .list items => .symbol .leftBracket :: (writeItems items ++ [.symbol .rightBracket])
  | .element name position =>
    .exactly name :: .symbol .leftBracket :: (position.write ++ [.symbol .rightBracket])
  | .slice name start stop =>
    .exactly name :: .symbol .leftBracket ::
      (start.write ++ .symbol .colon :: (stop.write ++ [.symbol .rightBracket]))
  | .stride name start stop step =>
    .exactly name :: .symbol .leftBracket ::
      (start.write ++ .symbol .colon ::
        (stop.write ++ .symbol .colon :: (step.write ++ [.symbol .rightBracket])))
  | .call name arguments =>
    .exactly name :: .symbol .leftParen :: (writeItems arguments ++ [.symbol .rightParen])

/-- The places of expressions separated by commas. -/
def writeItems : List Expr → List Slot
  | [] => []
  | e :: es => e.write ++ writeMore es

/-- The places of expressions with a comma in front of each. -/
def writeMore : List Expr → List Slot
  | [] => []
  | e :: es => .symbol .comma :: (e.write ++ writeMore es)

end

end Expr

/-- The places of an indented block. -/
def writeIndented (inner : List Slot) : List Slot := .any .indent :: (inner ++ [.any .dedent])

/-- The places of a body: the colon and line end that introduce it, and the block. -/
def writeBody (inner : List Slot) : List Slot :=
  .symbol .colon :: .any .newline :: writeIndented inner

/-- The places of names with a comma in front of each. -/
def writeMoreNames (names : List Token) : List Slot :=
  names.flatMap fun name => [.symbol .comma, .exactly name]

/-- The places of names separated by commas. -/
def writeNames : List Token → List Slot
  | [] => []
  | name :: names => .exactly name :: writeMoreNames names

mutual

/-- Whether the expressions and parts of a statement are canonical and the tokens that it keeps are
of the kinds that their places ask for. An expression that stands alone is no assignment, and the
step of a counting loop comes with a start. -/
def Stmt.isCanonical : Stmt → Bool
  | .expression value => value.isCanonical && !value.isAssignment
  | .print keyword value => keyword.kind == .keyword .print_ && value.isCanonical
  | .assign name value => name.kind == .identifier && value.isCanonical
  | .block body => areCanonical body
  | .branch condition body otherwise =>
    condition.isCanonical && areCanonical body && otherwise.isCanonical
  | .loop condition body => condition.isCanonical && areCanonical body
  | .forRange name start stop step body =>
    name.kind == .identifier && start.all Expr.isCanonical && stop.isCanonical &&
      step.all Expr.isCanonical && (start.isSome || step.isNone) && areCanonical body
  | .forEach name iterable body =>
    name.kind == .identifier && iterable.isCanonical && areCanonical body
  | .define name parameters body =>
    name.kind == .identifier && parameters.all (·.kind == .identifier) && areCanonical body
  | .return keyword value => keyword.kind == .keyword .return_ && value.all Expr.isCanonical

/-- Whether the further clauses of a branch are canonical. -/
def Alternative.isCanonical : Alternative → Bool
  | .nothing => true
  | .another condition body otherwise =>
    condition.isCanonical && areCanonical body && otherwise.isCanonical
  | .last body => areCanonical body

/-- Whether several statements are canonical. -/
def areCanonical : List Stmt → Bool
  | [] => true
  | s :: rest => s.isCanonical && areCanonical rest

end

mutual

/-- The places of a statement. -/
def Stmt.write : Stmt → List Slot
  | .expression value => value.write ++ [.any .newline]
  | .print keyword value =>
    .exactly keyword :: .symbol .leftParen ::
      (value.write ++ [.symbol .rightParen, .any .newline])
  | .assign name value => .exactly name :: .symbol .equal :: (value.write ++ [.any .newline])
  | .block body => writeIndented (writeEach body)
  | .branch condition body otherwise =>
    .keyword .if_ :: (condition.write ++ (writeBody (writeEach body) ++ otherwise.write))
  | .loop condition body => .keyword .while_ :: (condition.write ++ writeBody (writeEach body))
  | .forRange name start stop step body =>
    .keyword .for_ :: .exactly name :: .keyword .in_ :: .keyword .range_ :: .symbol .leftParen ::
      (Expr.writeItems (start.toList ++ stop :: step.toList) ++ .symbol .rightParen ::
        writeBody (writeEach body))
  | .forEach name iterable body =>
    .keyword .for_ :: .exactly name :: .keyword .in_ ::
      (iterable.write ++ writeBody (writeEach body))
  | .define name parameters body =>
    .keyword .def_ :: .exactly name :: .symbol .leftParen ::
      (writeNames parameters ++ .symbol .rightParen :: writeBody (writeEach body))
  | .return keyword none => [.exactly keyword, .any .newline]
  | .return keyword (some value) => .exactly keyword :: (value.write ++ [.any .newline])

/-- The places of the further clauses of a branch. -/
def Alternative.write : Alternative → List Slot
  | .nothing => []
  | .another condition body otherwise =>
    .keyword .elif_ :: (condition.write ++ (writeBody (writeEach body) ++ otherwise.write))
  | .last body => .keyword .else_ :: writeBody (writeEach body)

/-- The places of several statements. -/
def writeEach : List Stmt → List Slot
  | [] => []
  | s :: rest => s.write ++ writeEach rest

end

end Offside
