import Offside.Proofs.ExprReading
import Offside.Tree.Parser

/-!
# The grammar of statements

The grammar of programs as a relation between a phrase, the tokens in front of which it is read, and
the tokens behind it. Statements that fill a line take the ends of lines behind them; a sequence of
statements ends in front of the dedent of its block or at the end of the input.
-/

namespace Offside

/-- The tokens behind the ends of lines at the front. -/
def dropNewlines (ts : List Token) : List Token := ts.dropWhile (·.kind == .newline)

/-- A leading newline is dropped. -/
theorem dropNewlines_newline {t : Token} (h : t.kind = .newline) (ts : List Token) :
    dropNewlines (t :: ts) = dropNewlines ts :=
  List.dropWhile_cons_of_pos (by simp [h])

/-- Without a leading newline nothing is dropped. -/
theorem dropNewlines_of_not_leads {ts : List Token} (h : leads (· == .newline) ts = false) :
    dropNewlines ts = ts := by
  cases ts with
  | nil => rfl
  | cons t ts => exact List.dropWhile_cons_of_neg (by simpa using h)

namespace Stmt

/-- Whether a name and an equals sign are at the front. -/
def startsAssignment : List Token → Bool
  | name :: sign :: _ => name.kind == .identifier && sign.kind == .symbol .equal
  | _ => false

/-- The bounds of a counting loop in parentheses. -/
inductive DerivesRange : Option Expr → Expr → Option Expr → List Token → List Token → Prop
  | stop {opening closing : Token} {stop : Expr} {ts rest : List Token} :
    opening.kind = .symbol .leftParen → Expr.Derives (.whole stop) ts (closing :: rest) →
    closing.kind = .symbol .rightParen → DerivesRange none stop none (opening :: ts) rest
  | start {opening comma closing : Token} {start stop : Expr} {ts mid rest : List Token} :
    opening.kind = .symbol .leftParen → Expr.Derives (.whole start) ts (comma :: mid) →
    comma.kind = .symbol .comma → Expr.Derives (.whole stop) mid (closing :: rest) →
    closing.kind = .symbol .rightParen → DerivesRange (some start) stop none (opening :: ts) rest
  | step {opening comma comma' closing : Token} {start stop step : Expr}
    {ts mid mid' rest : List Token} :
    opening.kind = .symbol .leftParen → Expr.Derives (.whole start) ts (comma :: mid) →
    comma.kind = .symbol .comma → Expr.Derives (.whole stop) mid (comma' :: mid') →
    comma'.kind = .symbol .comma → Expr.Derives (.whole step) mid' (closing :: rest) →
    closing.kind = .symbol .rightParen →
    DerivesRange (some start) stop (some step) (opening :: ts) rest

/-- Parameter names with a comma in front of each. -/
inductive DerivesNames : List Token → List Token → List Token → Prop
  | nil {ts : List Token} : leads (· == .symbol .comma) ts = false → DerivesNames [] ts ts
  | cons {comma name : Token} {names ts rest : List Token} : comma.kind = .symbol .comma →
    name.kind = .identifier → DerivesNames names ts rest →
    DerivesNames (name :: names) (comma :: name :: ts) rest

/-- The parameters of a function in parentheses. -/
inductive DerivesParameters : List Token → List Token → List Token → Prop
  | none {opening closing : Token} {rest : List Token} : opening.kind = .symbol .leftParen →
    closing.kind = .symbol .rightParen → DerivesParameters [] (opening :: closing :: rest) rest
  | some {opening name closing : Token} {names ts rest : List Token} :
    opening.kind = .symbol .leftParen → name.kind = .identifier →
    DerivesNames names ts (closing :: rest) → closing.kind = .symbol .rightParen →
    DerivesParameters (name :: names) (opening :: name :: ts) rest

/-- What the grammar of statements can derive. -/
inductive Phrase where
  | one (s : Stmt)
  /-- Statements up to the end of their block or of the input. -/
  | sequence (body : List Stmt)
  /-- An indented block. -/
  | block (body : List Stmt)
  /-- The colon and line end that introduce a block, and the block. -/
  | body (body : List Stmt)
  /-- The further clauses of a branch. -/
  | alternative (otherwise : Alternative)

/-- The grammar of statements: from the tokens `ts` a phrase is read that leaves `rest`. -/
inductive Derives : Phrase → List Token → List Token → Prop
  | expression {value : Expr} {ts rest : List Token} : Expr.Derives (.whole value) ts rest →
    startsAssignment ts = false → Derives (.one (.expression value)) ts (dropNewlines rest)
  | assign {name sign : Token} {value : Expr} {ts rest : List Token} : name.kind = .identifier →
    sign.kind = .symbol .equal → Expr.Derives (.whole value) ts rest →
    Derives (.one (.assign name value)) (name :: sign :: ts) (dropNewlines rest)
  | print {keyword opening closing : Token} {value : Expr} {ts rest : List Token} :
    keyword.kind = .keyword .print_ → opening.kind = .symbol .leftParen →
    Expr.Derives (.whole value) ts (closing :: rest) → closing.kind = .symbol .rightParen →
    Derives (.one (.print keyword value)) (keyword :: opening :: ts) (dropNewlines rest)
  | returnNothing {keyword : Token} {ts : List Token} : keyword.kind = .keyword .return_ →
    leads (fun kind => kind != .newline && kind != .dedent) ts = false →
    Derives (.one (.return keyword none)) (keyword :: ts) (dropNewlines ts)
  | returnValue {keyword : Token} {value : Expr} {ts rest : List Token} :
    keyword.kind = .keyword .return_ → Expr.Derives (.whole value) ts rest →
    Derives (.one (.return keyword (some value))) (keyword :: ts) (dropNewlines rest)
  | nested {opening : Token} {body : List Stmt} {ts rest : List Token} :
    opening.kind = .indent → Derives (.block body) (opening :: ts) rest →
    Derives (.one (.block body)) (opening :: ts) rest
  | branch {keyword : Token} {condition : Expr} {body : List Stmt} {otherwise : Alternative}
    {ts mid mid' rest : List Token} : keyword.kind = .keyword .if_ →
    Expr.Derives (.whole condition) ts mid → Derives (.body body) mid mid' →
    Derives (.alternative otherwise) mid' rest →
    Derives (.one (.branch condition body otherwise)) (keyword :: ts) rest
  | loop {keyword : Token} {condition : Expr} {body : List Stmt} {ts mid rest : List Token} :
    keyword.kind = .keyword .while_ → Expr.Derives (.whole condition) ts mid →
    Derives (.body body) mid rest → Derives (.one (.loop condition body)) (keyword :: ts) rest
  | forRange {keyword name in_ range : Token} {start : Option Expr} {stop : Expr}
    {step : Option Expr} {body : List Stmt} {ts mid rest : List Token} :
    keyword.kind = .keyword .for_ → name.kind = .identifier → in_.kind = .keyword .in_ →
    range.kind = .keyword .range_ → DerivesRange start stop step ts mid →
    Derives (.body body) mid rest →
    Derives (.one (.forRange name start stop step body)) (keyword :: name :: in_ :: range :: ts)
      rest
  | forEach {keyword name in_ : Token} {iterable : Expr} {body : List Stmt}
    {ts mid rest : List Token} : keyword.kind = .keyword .for_ → name.kind = .identifier →
    in_.kind = .keyword .in_ → Expr.Derives (.whole iterable) ts mid →
    Derives (.body body) mid rest →
    Derives (.one (.forEach name iterable body)) (keyword :: name :: in_ :: ts) rest
  | define {keyword name : Token} {parameters : List Token} {body : List Stmt}
    {ts mid rest : List Token} : keyword.kind = .keyword .def_ → name.kind = .identifier →
    DerivesParameters parameters ts mid → Derives (.body body) mid rest →
    Derives (.one (.define name parameters body)) (keyword :: name :: ts) rest
  | emptyLine {newline : Token} {body : List Stmt} {ts rest : List Token} :
    newline.kind = .newline → Derives (.sequence body) ts rest →
    Derives (.sequence body) (newline :: ts) rest
  | finish {ts : List Token} : leads (· != .dedent) ts = false → Derives (.sequence []) ts ts
  | next {s : Stmt} {body : List Stmt} {ts mid rest : List Token} : Derives (.one s) ts mid →
    Derives (.sequence body) mid rest → Derives (.sequence (s :: body)) ts rest
  | skip {newline : Token} {body : List Stmt} {ts rest : List Token} :
    newline.kind = .newline → Derives (.block body) ts rest →
    Derives (.block body) (newline :: ts) rest
  | block {opening closing : Token} {body : List Stmt} {ts rest : List Token} :
    opening.kind = .indent → Derives (.sequence body) ts (closing :: rest) →
    closing.kind = .dedent → Derives (.block body) (opening :: ts) rest
  | body {colon newline : Token} {body : List Stmt} {ts rest : List Token} :
    colon.kind = .symbol .colon → newline.kind = .newline → Derives (.block body) ts rest →
    Derives (.body body) (colon :: newline :: ts) rest
  | nothing {ts : List Token} : leads (· == .keyword .elif_) ts = false →
    leads (· == .keyword .else_) ts = false → Derives (.alternative .nothing) ts ts
  | another {keyword : Token} {condition : Expr} {body : List Stmt} {otherwise : Alternative}
    {ts mid mid' rest : List Token} : keyword.kind = .keyword .elif_ →
    Expr.Derives (.whole condition) ts mid → Derives (.body body) mid mid' →
    Derives (.alternative otherwise) mid' rest →
    Derives (.alternative (.another condition body otherwise)) (keyword :: ts) rest
  | last {keyword : Token} {body : List Stmt} {ts rest : List Token} :
    keyword.kind = .keyword .else_ → Derives (.body body) ts rest →
    Derives (.alternative (.last body)) (keyword :: ts) rest

/-- The least number of tokens that a phrase takes. -/
def Phrase.least : Phrase → Nat
  | .one _ | .block _ | .body _ => 1
  | .sequence _ | .alternative _ => 0

/-- Dropping newlines lengthens no stream. -/
theorem length_dropNewlines_le (ts : List Token) : (dropNewlines ts).length ≤ ts.length :=
  (List.dropWhile_suffix _).length_le

/-- The bounds of a loop are read off the front. -/
theorem DerivesRange.length_le {start step : Option Expr} {stop : Expr} {ts rest : List Token}
    (h : DerivesRange start stop step ts rest) : rest.length ≤ ts.length := by
  cases h with
  | stop _ h _ =>
    have hlength := h.length_le
    simp only [List.length_cons] at hlength ⊢
    omega
  | start _ h _ h' _ =>
    have hlength := h.length_le
    have hlength' := h'.length_le
    simp only [List.length_cons] at hlength hlength' ⊢
    omega
  | step _ h _ h' _ h'' _ =>
    have hlength := h.length_le
    have hlength' := h'.length_le
    have hlength'' := h''.length_le
    simp only [List.length_cons] at hlength hlength' hlength'' ⊢
    omega

/-- Further parameters are read off the front. -/
theorem DerivesNames.length_le {names ts rest : List Token} (h : DerivesNames names ts rest) :
    rest.length ≤ ts.length := by
  induction h with
  | nil _ => omega
  | cons _ _ _ ih =>
    simp only [List.length_cons]
    omega

/-- Parameters are read off the front. -/
theorem DerivesParameters.length_le {parameters ts rest : List Token}
    (h : DerivesParameters parameters ts rest) : rest.length ≤ ts.length := by
  cases h with
  | none _ _ =>
    simp only [List.length_cons]
    omega
  | some _ _ h _ =>
    have hlength := h.length_le
    simp only [List.length_cons] at hlength ⊢
    omega

/-- Reading a phrase uses up tokens. -/
theorem Derives.length_le {phrase : Phrase} {ts rest : List Token} (h : Derives phrase ts rest) :
    rest.length + phrase.least ≤ ts.length := by
  induction h with
  | @expression _ _ rest h _ =>
    have hlength := h.length_le
    have hdrop := length_dropNewlines_le rest
    simp only [Expr.Phrase.least, Phrase.least] at hlength ⊢
    omega
  | @assign _ _ _ _ rest _ _ h =>
    have hlength := h.length_le
    have hdrop := length_dropNewlines_le rest
    simp only [Phrase.least, List.length_cons] at hlength ⊢
    omega
  | @print _ _ _ _ _ rest _ _ h _ =>
    have hlength := h.length_le
    have hdrop := length_dropNewlines_le rest
    simp only [Phrase.least, List.length_cons] at hlength ⊢
    omega
  | @returnNothing _ ts _ _ =>
    have hdrop := length_dropNewlines_le ts
    simp only [Phrase.least, List.length_cons]
    omega
  | @returnValue _ _ _ rest _ h =>
    have hlength := h.length_le
    have hdrop := length_dropNewlines_le rest
    simp only [Phrase.least, List.length_cons]
    omega
  | nested _ _ ih => exact ih
  | branch _ h _ _ ih ih' =>
    have hlength := h.length_le
    simp only [Phrase.least, List.length_cons] at ih ih' ⊢
    omega
  | loop _ h _ ih =>
    have hlength := h.length_le
    simp only [Phrase.least, List.length_cons] at ih ⊢
    omega
  | forRange _ _ _ _ h _ ih =>
    have hlength := h.length_le
    simp only [Phrase.least, List.length_cons] at ih ⊢
    omega
  | forEach _ _ _ h _ ih =>
    have hlength := h.length_le
    simp only [Phrase.least, List.length_cons] at ih ⊢
    omega
  | define _ _ h _ ih =>
    have hlength := h.length_le
    simp only [Phrase.least, List.length_cons] at ih ⊢
    omega
  | another _ h _ _ ih ih' =>
    have hlength := h.length_le
    simp only [Phrase.least, List.length_cons] at ih ih' ⊢
    omega
  | _ =>
    simp only [Phrase.least, List.length_cons] at *
    omega

/-- Whether a token of this kind can start this statement. -/
def startsWith : Stmt → Kind → Bool
  | .expression _ => Kind.startsExpr
  | .print _ _ => (· == .keyword .print_)
  | .assign _ _ => (· == .identifier)
  | .block _ => (· == .indent)
  | .branch _ _ _ => (· == .keyword .if_)
  | .loop _ _ => (· == .keyword .while_)
  | .forRange _ _ _ _ _ | .forEach _ _ _ => (· == .keyword .for_)
  | .define _ _ _ => (· == .keyword .def_)
  | .return _ _ => (· == .keyword .return_)

/-- What a statement derives starts as the statement must. -/
theorem Derives.startsWith {s : Stmt} {ts rest : List Token} (h : Derives (.one s) ts rest) :
    leads s.startsWith ts = true := by
  cases h with
  | expression h _ => exact h.starts
  | assign hkind _ _ => simp [Stmt.startsWith, hkind]
  | nested hkind _ => simp [Stmt.startsWith, hkind]
  | print hkind _ _ _ => simp [Stmt.startsWith, hkind]
  | returnNothing hkind _ => simp [Stmt.startsWith, hkind]
  | returnValue hkind _ => simp [Stmt.startsWith, hkind]
  | branch hkind _ _ _ => simp [Stmt.startsWith, hkind]
  | loop hkind _ _ => simp [Stmt.startsWith, hkind]
  | forRange hkind _ _ _ _ _ => simp [Stmt.startsWith, hkind]
  | forEach hkind _ _ _ _ => simp [Stmt.startsWith, hkind]
  | define hkind _ _ _ => simp [Stmt.startsWith, hkind]

/-- Whether a token of this kind tells at once what statement follows. -/
def startsForm (kind : Kind) : Bool :=
  kind == .indent ||
    [Keyword.print_, .return_, .if_, .while_, .for_, .def_].any (kind == .keyword ·)

/-- Whether a token of this kind can start a statement. -/
def startsStmt (kind : Kind) : Bool := kind.startsExpr || startsForm kind

/-- How one statement starts is how some statement does. -/
theorem startsStmt_of_startsWith (s : Stmt) (kind : Kind) (h : s.startsWith kind) :
    startsStmt kind := by
  cases s with
  | expression _ =>
    simp only [startsStmt, Bool.or_eq_true]
    exact .inl h
  | _ =>
    rw [eq_of_beq h]
    decide

/-- What a statement derives starts as some statement does. -/
theorem Derives.starts {s : Stmt} {ts rest : List Token} (h : Derives (.one s) ts rest) :
    leads startsStmt ts = true :=
  leads_mono (startsStmt_of_startsWith s) h.startsWith

end Stmt

end Offside
