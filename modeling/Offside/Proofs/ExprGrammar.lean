import Offside.Proofs.Readers
import Offside.Tree.ExprReader

/-!
# The grammar of expressions

The grammar as a relation between a phrase, the tokens in front of which it is read, and the tokens
behind it. It knows nothing of limits: reading with a limit of at least the number of tokens finds a
phrase exactly if the grammar derives it.
-/

namespace Offside

/-- The constant that a token of this kind spells out. -/
def Kind.literal? : Kind → Option Literal
  | .keyword .false_ => some (.boolean false)
  | .keyword .true_ => some (.boolean true)
  | .keyword .none_ => some .none
  | .number value => some (.number value)
  | .string contents => some (.string contents)
  | _ => none

/-- Whether a token of this kind can start a literal, a group, a list, or what a name starts. -/
def Kind.startsPrimary (kind : Kind) : Bool :=
  kind.literal?.isSome || kind == .symbol .leftParen || kind == .symbol .leftBracket ||
    kind == .identifier

/-- Whether a token of this kind can start an expression. -/
def Kind.startsExpr (kind : Kind) : Bool :=
  kind.startsPrimary || Expr.prefixOperators.contains kind

namespace Expr

/-- What the grammar of expressions can derive. -/
inductive Phrase where
  /-- An expression that may be an assignment. -/
  | whole (e : Expr)
  /-- An expression of the `i`-th level or of a tighter one. -/
  | operation (i : Nat) (e : Expr)
  /-- The operators of the `i`-th level behind `left`, and their operands; together they are `e`. -/
  | chain (i : Nat) (left e : Expr)
  /-- Prefix operators and a power. -/
  | signed (e : Expr)
  | power (e : Expr)
  | primary (e : Expr)
  /-- Expressions separated by commas, in front of a closing symbol. -/
  | items (closing : Symbol) (es : List Expr)
  /-- Expressions with a comma in front of each. -/
  | more (es : List Expr)

/-- The grammar of expressions: from the tokens `ts` a phrase is read that leaves `rest`. -/
inductive Derives : Phrase → List Token → List Token → Prop
  | operation {e : Expr} {ts rest : List Token} : Derives (.operation 0 e) ts rest →
    leads (· == .symbol .equal) rest = false → Derives (.whole e) ts rest
  | assign {name sign : Token} {value : Expr} {ts mid rest : List Token} :
    Derives (.operation 0 (.variable name)) ts (sign :: mid) → sign.kind = .symbol .equal →
    Derives (.whole value) mid rest → Derives (.whole (.assign name value)) ts rest
  | level {i : Nat} {level : Level} {left e : Expr} {ts mid rest : List Token} :
    levels[i]? = some level → Derives (.operation (i + 1) left) ts mid →
    Derives (.chain i left e) mid rest → Derives (.operation i e) ts rest
  | tightest {i : Nat} {e : Expr} {ts rest : List Token} : levels[i]? = none →
    Derives (.signed e) ts rest → Derives (.operation i e) ts rest
  | chainEnd {i : Nat} {level : Level} {e : Expr} {ts : List Token} : levels[i]? = some level →
    leads level.operators.contains ts = false → Derives (.chain i e e) ts ts
  | chainStep {i : Nat} {level : Level} {left right e : Expr} {operator : Token}
    {ts mid rest : List Token} : levels[i]? = some level → operator.kind ∈ level.operators →
    Derives (.operation (i + 1) right) ts mid →
    Derives (.chain i (level.join left operator right) e) mid rest →
    Derives (.chain i left e) (operator :: ts) rest
  | sign {operator : Token} {e : Expr} {ts rest : List Token} : operator.kind ∈ prefixOperators →
    Derives (.signed e) ts rest → Derives (.signed (applyPrefix operator e)) (operator :: ts) rest
  | unsigned {e : Expr} {ts rest : List Token} : Derives (.power e) ts rest →
    Derives (.signed e) ts rest
  | base {e : Expr} {ts rest : List Token} : Derives (.primary e) ts rest →
    leads (· == .symbol .power) rest = false → Derives (.power e) ts rest
  | raise {base exponent : Expr} {operator : Token} {ts mid rest : List Token} :
    Derives (.primary base) ts (operator :: mid) → operator.kind = .symbol .power →
    Derives (.power exponent) mid rest → Derives (.power (.binary base operator exponent)) ts rest
  | literal {t : Token} {value : Literal} {ts : List Token} : t.kind.literal? = some value →
    Derives (.primary (.literal value)) (t :: ts) ts
  | grouping {opening closing : Token} {e : Expr} {ts rest : List Token} :
    opening.kind = .symbol .leftParen → Derives (.whole e) ts (closing :: rest) →
    closing.kind = .symbol .rightParen → Derives (.primary (.grouping e)) (opening :: ts) rest
  | list {opening closing : Token} {es : List Expr} {ts rest : List Token} :
    opening.kind = .symbol .leftBracket → Derives (.items .rightBracket es) ts (closing :: rest) →
    closing.kind = .symbol .rightBracket → Derives (.primary (.list es)) (opening :: ts) rest
  | variable {name : Token} {ts : List Token} : name.kind = .identifier →
    leads (· == .symbol .leftBracket) ts = false → leads (· == .symbol .leftParen) ts = false →
    Derives (.primary (.variable name)) (name :: ts) ts
  | element {name opening closing : Token} {position : Expr} {ts rest : List Token} :
    name.kind = .identifier → opening.kind = .symbol .leftBracket →
    Derives (.whole position) ts (closing :: rest) → closing.kind = .symbol .rightBracket →
    Derives (.primary (.element name position)) (name :: opening :: ts) rest
  | slice {name opening colon closing : Token} {start stop : Expr} {ts mid rest : List Token} :
    name.kind = .identifier → opening.kind = .symbol .leftBracket →
    Derives (.whole start) ts (colon :: mid) → colon.kind = .symbol .colon →
    Derives (.whole stop) mid (closing :: rest) → closing.kind = .symbol .rightBracket →
    Derives (.primary (.slice name start stop)) (name :: opening :: ts) rest
  | stride {name opening colon colon' closing : Token} {start stop step : Expr}
    {ts mid mid' rest : List Token} :
    name.kind = .identifier → opening.kind = .symbol .leftBracket →
    Derives (.whole start) ts (colon :: mid) → colon.kind = .symbol .colon →
    Derives (.whole stop) mid (colon' :: mid') → colon'.kind = .symbol .colon →
    Derives (.whole step) mid' (closing :: rest) → closing.kind = .symbol .rightBracket →
    Derives (.primary (.stride name start stop step)) (name :: opening :: ts) rest
  | call {name opening closing : Token} {es : List Expr} {ts rest : List Token} :
    name.kind = .identifier → opening.kind = .symbol .leftParen →
    Derives (.items .rightParen es) ts (closing :: rest) → closing.kind = .symbol .rightParen →
    Derives (.primary (.call name es)) (name :: opening :: ts) rest
  | noItems {closing : Symbol} {ts : List Token} : leads (· == .symbol closing) ts = true →
    Derives (.items closing []) ts ts
  | items {closing : Symbol} {e : Expr} {es : List Expr} {ts mid rest : List Token} :
    leads (· == .symbol closing) ts = false → Derives (.whole e) ts mid →
    Derives (.more es) mid rest → Derives (.items closing (e :: es)) ts rest
  | noMore {ts : List Token} : leads (· == .symbol .comma) ts = false → Derives (.more []) ts ts
  | more {comma : Token} {e : Expr} {es : List Expr} {ts mid rest : List Token} :
    comma.kind = .symbol .comma → Derives (.whole e) ts mid → Derives (.more es) mid rest →
    Derives (.more (e :: es)) (comma :: ts) rest

/-- The least number of tokens that a phrase takes. -/
def Phrase.least : Phrase → Nat
  | .whole _ | .operation _ _ | .signed _ | .power _ | .primary _ => 1
  | .chain _ _ _ | .items _ _ | .more _ => 0

/-- Reading a phrase uses up tokens. -/
theorem Derives.length_le {phrase : Phrase} {ts rest : List Token} (h : Derives phrase ts rest) :
    rest.length + phrase.least ≤ ts.length := by
  induction h <;> simp only [Phrase.least, List.length_cons] at * <;> omega

/-- What is said about the first token of a phrase. -/
def Phrase.Starts (ts : List Token) : Phrase → Prop
  | .whole _ | .operation _ _ | .signed _ => leads Kind.startsExpr ts = true
  | .power _ | .primary _ => leads Kind.startsPrimary ts = true
  | .chain _ _ _ | .items _ _ | .more _ => True

/-- What a phrase derives starts as the phrase must. -/
theorem Derives.starts {phrase : Phrase} {ts rest : List Token} (h : Derives phrase ts rest) :
    phrase.Starts ts := by
  have hexpr (kind : Kind) (h : kind.startsPrimary) : kind.startsExpr := by
    simp [Kind.startsExpr, h]
  induction h with
  | operation _ _ ih => exact ih
  | assign _ _ _ ih _ => exact ih
  | level _ _ _ ih _ => exact ih
  | tightest _ _ ih => exact ih
  | sign hkind _ _ => simp [Phrase.Starts, Kind.startsExpr, hkind]
  | unsigned _ ih => exact leads_mono hexpr ih
  | base _ _ ih => exact ih
  | raise _ _ _ ih _ => exact ih
  | literal hvalue => simp [Phrase.Starts, Kind.startsPrimary, hvalue]
  | grouping hkind _ _ _ => simp [Phrase.Starts, Kind.startsPrimary, hkind]
  | list hkind _ _ _ => simp [Phrase.Starts, Kind.startsPrimary, hkind]
  | «variable» hkind _ _ => simp [Phrase.Starts, Kind.startsPrimary, hkind]
  | element hkind _ _ _ _ => simp [Phrase.Starts, Kind.startsPrimary, hkind]
  | slice hkind _ _ _ _ _ _ => simp [Phrase.Starts, Kind.startsPrimary, hkind]
  | stride hkind _ _ _ _ _ _ _ _ _ => simp [Phrase.Starts, Kind.startsPrimary, hkind]
  | call hkind _ _ _ _ => simp [Phrase.Starts, Kind.startsPrimary, hkind]
  | chainEnd _ _ => trivial
  | chainStep _ _ _ _ _ _ => trivial
  | noItems _ => trivial
  | items _ _ _ _ _ => trivial
  | noMore _ => trivial
  | more _ _ _ _ _ => trivial

end Expr

end Offside
