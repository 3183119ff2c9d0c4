import Offside.Proofs.Splitting
import Offside.Proofs.StreamShape
import Offside.Proofs.Yield

/-!
# Supported trees

Evaluation knows some operators only, and trees can be built with others. The parser never does
that: the operators of a tree are those of the grammar, and every block that was indented has a
statement in it, because a level of indentation is opened in front of a token. What else a program
relies on is in the shape of trees: a branch has a first clause, the body of a compound statement is
a block, and a step between positions comes with an end.
-/

namespace Offside

/-- The operators of two operands that are evaluated. -/
def binaryOperators : List Kind :=
  [.symbol .plus, .symbol .minus, .symbol .star, .symbol .slash, .symbol .percent, .symbol .power,
    .symbol .greater, .symbol .greaterEqual, .symbol .less, .symbol .lessEqual, .symbol .equalEqual,
    .symbol .bangEqual]

/-- The operators that may be decided by their left operand. -/
def logicalOperators : List Kind := [.keyword .and_, .keyword .or_]

mutual

/-- An expression with supported operators only. The negative of a literal zero is not supported. -/
def Expr.Supported : Expr → Prop
  | .literal _ | .variable _ => True
  | .grouping inner => inner.Supported
  | .unary operator operand =>
    operator.kind ∈ Expr.prefixOperators ∧ ¬(operator.kind = .symbol .minus ∧ operand.isZero) ∧
      operand.Supported
  | .binary left operator right =>
    operator.kind ∈ binaryOperators ∧ left.Supported ∧ right.Supported
  | .logical left operator right =>
    operator.kind ∈ logicalOperators ∧ left.Supported ∧ right.Supported
  | .assign _ value => value.Supported
  | .list items => Expr.EachSupported items
  | .element _ position => position.Supported
  | .slice _ start stop => start.Supported ∧ stop.Supported
  | .stride _ start stop step => start.Supported ∧ stop.Supported ∧ step.Supported
  | .call _ arguments => Expr.EachSupported arguments

/-- Expressions with supported operators only. -/
def Expr.EachSupported : List Expr → Prop
  | [] => True
  | e :: es => e.Supported ∧ Expr.EachSupported es

end

/-- An expression that may be absent, with supported operators only. -/
def Expr.OptionalSupported : Option Expr → Prop
  | none => True
  | some e => e.Supported

mutual

/-- A statement with supported operators and without an empty block. -/
def Stmt.Supported : Stmt → Prop
  | .expression value | .print _ value | .assign _ value => value.Supported
  | .block body => Stmt.BodySupported body
  | .branch condition body otherwise =>
    condition.Supported ∧ Stmt.BodySupported body ∧ otherwise.Supported
  | .loop condition body => condition.Supported ∧ Stmt.BodySupported body
  | .forRange _ start stop step body =>
    Expr.OptionalSupported start ∧ stop.Supported ∧ Expr.OptionalSupported step ∧
      Stmt.BodySupported body
  | .forEach _ iterable body => iterable.Supported ∧ Stmt.BodySupported body
  | .define _ _ body => Stmt.BodySupported body
  | .return _ value => Expr.OptionalSupported value

/-- Further clauses with supported operators and without an empty block. -/
def Alternative.Supported : Alternative → Prop
  | .nothing => True
  | .another condition body otherwise =>
    condition.Supported ∧ Stmt.BodySupported body ∧ otherwise.Supported
  | .last body => Stmt.BodySupported body

/-- A block, or the body of a function: supported statements, and at least one. -/
def Stmt.BodySupported : List Stmt → Prop
  | [] => False
  | s :: rest => s.Supported ∧ Stmt.EachSupported rest

/-- Supported statements. -/
def Stmt.EachSupported : List Stmt → Prop
  | [] => True
  | s :: rest => s.Supported ∧ Stmt.EachSupported rest

end

/-- A supported body is a non-empty sequence of supported statements. -/
theorem Stmt.bodySupported_iff {body : List Stmt} :
    Stmt.BodySupported body ↔ body ≠ [] ∧ Stmt.EachSupported body := by
  cases body with
  | nil => simp [Stmt.BodySupported]
  | cons s rest => simp [Stmt.BodySupported, Stmt.EachSupported]

/-! ## Expressions -/

namespace Expr

/-- The grammar folds a sign into a literal zero. -/
theorem supported_applyPrefix {operator : Token} {e : Expr}
    (hkind : operator.kind ∈ prefixOperators) (he : e.Supported) :
    (applyPrefix operator e).Supported := by
  have hunary (hzero : ¬(operator.kind = .symbol .minus ∧ e.isZero)) :
      (Expr.unary operator e).Supported := by
    rw [Expr.Supported]
    exact ⟨hkind, hzero, he⟩
  unfold applyPrefix
  split
  next value =>
    split
    · simp [Expr.Supported]
    next hzero => exact hunary (by simpa [isZero] using hzero)
  next hliteral =>
    have hzero : e.isZero = false := by
      unfold isZero
      split
      · exact absurd rfl (hliteral _)
      · rfl
    exact hunary (by simp [hzero])

/-- The operators of a level are those of its nodes. -/
theorem supported_join {i : Nat} {level : Level} (hlevel : levels[i]? = some level)
    {operator : Token} (hkind : operator.kind ∈ level.operators) {left right : Expr}
    (hleft : left.Supported) (hright : right.Supported) :
    (level.join left operator right).Supported := by
  have hmem := List.mem_of_getElem? hlevel
  simp only [levels, List.mem_cons, List.not_mem_nil, or_false] at hmem
  rcases hmem with rfl | rfl | rfl | rfl | rfl | rfl <;>
    simp only [List.mem_cons, List.not_mem_nil, or_false] at hkind <;>
    simp only [Expr.Supported, logicalOperators, binaryOperators, List.mem_cons, List.not_mem_nil,
      or_false] <;> tauto

/-- What is said about the expressions of a phrase. -/
def Phrase.Supported : Phrase → Prop
  | .whole e | .operation _ e | .signed e | .power e | .primary e => e.Supported
  | .chain _ left e => left.Supported → e.Supported
  | .items _ es | .more es => EachSupported es

/-- The grammar derives supported expressions only. -/
theorem Derives.supported {phrase : Phrase} {ts rest : List Token} (h : Derives phrase ts rest) :
    phrase.Supported := by
  induction h with
  | operation _ _ ih => exact ih
  | assign _ _ _ _ ih =>
    simp only [Phrase.Supported, Expr.Supported] at ih ⊢
    exact ih
  | level _ _ _ ih ih' => exact ih' ih
  | tightest _ _ ih => exact ih
  | chainEnd _ _ => exact id
  | chainStep hlevel hkind _ _ ih ih' =>
    exact fun hleft => ih' (supported_join hlevel hkind hleft ih)
  | sign hkind _ ih => exact supported_applyPrefix hkind ih
  | unsigned _ ih => exact ih
  | base _ _ ih => exact ih
  | raise _ hkind _ ih ih' =>
    simp only [Phrase.Supported, Expr.Supported] at ih ih' ⊢
    exact ⟨by simp [hkind, binaryOperators], ih, ih'⟩
  | literal _ => simp [Phrase.Supported, Expr.Supported]
  | «variable» _ _ _ => simp [Phrase.Supported, Expr.Supported]
  | grouping _ _ _ ih | list _ _ _ ih | element _ _ _ _ ih | call _ _ _ _ ih =>
    simp only [Phrase.Supported, Expr.Supported] at ih ⊢
    exact ih
  | slice _ _ _ _ _ _ ih ih' =>
    simp only [Phrase.Supported, Expr.Supported] at ih ih' ⊢
    exact ⟨ih, ih'⟩
  | stride _ _ _ _ _ _ _ _ ih ih' ih'' =>
    simp only [Phrase.Supported, Expr.Supported] at ih ih' ih'' ⊢
    exact ⟨ih, ih', ih''⟩
  | noItems _ | noMore _ => simp [Phrase.Supported, EachSupported]
  | items _ _ _ ih ih' | more _ _ _ ih ih' =>
    simp only [Phrase.Supported, EachSupported] at ih ih' ⊢
    exact ⟨ih, ih'⟩

end Expr

/-! ## Statements -/

/-- Every level is opened in front of a token with text of its own. -/
def IndentsLead (ts : List Token) : Prop :=
  ∀ before t after, ts = before ++ t :: after → t.kind = .indent → leads (!·.isStructural) after

/-- Indents still lead lines in the rest of a stream. -/
theorem IndentsLead.suffix {ts rest : List Token} (h : IndentsLead ts) (hrest : rest <:+ ts) :
    IndentsLead rest := by
  obtain ⟨taken, rfl⟩ := hrest
  rintro before t after rfl
  exact h (taken ++ before) t after (List.append_assoc ..).symm

/-- Indents still lead lines behind the first token. -/
theorem IndentsLead.tail {t : Token} {ts : List Token} (h : IndentsLead (t :: ts)) :
    IndentsLead ts :=
  h.suffix (List.suffix_cons t ts)

/-- What a phrase leaves ends the stream. -/
theorem Yields.suffix {slots : List Slot} {ts rest : List Token} (h : Yields slots ts rest) :
    rest <:+ ts := by
  obtain ⟨taken, rfl, -⟩ := h
  exact List.suffix_append taken rest

namespace Stmt

/-- The bounds that are derived are supported. -/
theorem DerivesRange.supported {start step : Option Expr} {stop : Expr} {ts rest : List Token}
    (h : DerivesRange start stop step ts rest) :
    Expr.OptionalSupported start ∧ stop.Supported ∧ Expr.OptionalSupported step := by
  cases h with
  | stop _ h _ => exact ⟨trivial, h.supported, trivial⟩
  | start _ h _ h' _ => exact ⟨h.supported, h'.supported, trivial⟩
  | step _ h _ h' _ h'' _ => exact ⟨h.supported, h'.supported, h''.supported⟩

/-- What is said about the statements of a phrase. -/
def Phrase.Supported : Phrase → Prop
  | .one s => s.Supported
  | .sequence inner => EachSupported inner
  | .block inner | .body inner => BodySupported inner
  | .alternative otherwise => otherwise.Supported

/-- There is a statement where a token with text of its own follows. -/
theorem Derives.sequence_ne_nil {inner : List Stmt} {ts rest : List Token}
    (h : Derives (.sequence inner) ts rest) (hts : leads (!·.isStructural) ts) : inner ≠ [] := by
  cases h with
  | emptyLine hkind _ => simp [hkind, Kind.isStructural] at hts
  | finish hend =>
    have hdedent (kind : Kind) (hkind : !kind.isStructural) : kind != .dedent := by
      cases kind with
      | dedent => cases hkind
      | _ => rfl
    rw [leads_mono hdedent hts] at hend
    cases hend
  | next _ _ => simp

/-- What an expression leaves ends the stream. -/
theorem suffix_whole {e : Expr} {ts rest : List Token} (h : Expr.Derives (.whole e) ts rest) :
    rest <:+ ts := by
  have hyields : Yields e.write ts rest := h.accounted
  exact hyields.suffix

/-- The grammar derives supported statements only, if levels are opened in front of tokens. -/
theorem Derives.supported {phrase : Phrase} {ts rest : List Token} (h : Derives phrase ts rest)
    (hts : IndentsLead ts) : phrase.Supported := by
  induction h with
  | expression h _ | assign _ _ h | print _ _ h _ =>
    simp only [Phrase.Supported, Stmt.Supported]
    exact h.supported
  | returnNothing _ _ => simp [Phrase.Supported, Stmt.Supported, Expr.OptionalSupported]
  | returnValue _ h =>
    simp only [Phrase.Supported, Stmt.Supported]
    exact h.supported
  | nested _ _ ih =>
    simp only [Phrase.Supported, Stmt.Supported] at ih ⊢
    exact ih hts
  | branch _ h hbody _ ih ih' =>
    have hmid := hts.tail.suffix (suffix_whole h)
    simp only [Phrase.Supported, Stmt.Supported] at ih ih' ⊢
    exact ⟨h.supported, ih hmid, ih' (hmid.suffix hbody.yields.suffix)⟩
  | loop _ h _ ih =>
    simp only [Phrase.Supported, Stmt.Supported] at ih ⊢
    exact ⟨h.supported, ih (hts.tail.suffix (suffix_whole h))⟩
  | forRange _ _ _ _ h _ ih =>
    obtain ⟨hstart, hstop, hstep⟩ := h.supported
    simp only [Phrase.Supported, Stmt.Supported] at ih ⊢
    exact ⟨hstart, hstop, hstep, ih (hts.tail.tail.tail.tail.suffix h.yields.suffix)⟩
  | forEach _ _ _ h _ ih =>
    simp only [Phrase.Supported, Stmt.Supported] at ih ⊢
    exact ⟨h.supported, ih (hts.tail.tail.tail.suffix (suffix_whole h))⟩
  | define _ _ h _ ih =>
    simp only [Phrase.Supported, Stmt.Supported] at ih ⊢
    exact ih (hts.tail.tail.suffix h.yields.suffix)
  | emptyLine _ _ ih => exact ih hts.tail
  | finish _ => simp [Phrase.Supported, EachSupported]
  | next hone _ ih ih' =>
    simp only [Phrase.Supported, EachSupported] at ih ih' ⊢
    exact ⟨ih hts, ih' (hts.suffix hone.yields.suffix)⟩
  | skip _ _ ih => exact ih hts.tail
  | block hopening hinner _ ih =>
    -- The token behind the indent starts a statement.
    have hfirst := hts [] _ _ rfl hopening
    exact bodySupported_iff.mpr ⟨hinner.sequence_ne_nil hfirst, ih hts.tail⟩
  | body _ _ _ ih => exact ih hts.tail.tail
  | nothing _ _ => simp [Phrase.Supported, Alternative.Supported]
  | another _ h hbody _ ih ih' =>
    have hmid := hts.tail.suffix (suffix_whole h)
    simp only [Phrase.Supported, Alternative.Supported] at ih ih' ⊢
    exact ⟨h.supported, ih hmid, ih' (hmid.suffix hbody.yields.suffix)⟩
  | last _ _ ih =>
    simp only [Phrase.Supported, Alternative.Supported] at ih ⊢
    exact ih hts.tail

end Stmt

/-! ## Sources -/

/-- Levels of a scanned source are opened in front of tokens, also without the end of the input. -/
theorem indentsLead_bodyOf (source : String) : IndentsLead (bodyOf source) := by
  have hshape := (laid_scan source).wellShaped
  obtain ⟨body, finish, htokens, hfinish, hbody⟩ := hshape.ends
  have hbodyOf : bodyOf source = body := by
    rw [bodyOf, htokens]
    exact (tokensBeforeEnd_append hbody hfinish).1
  rw [hbodyOf]
  rintro before t after rfl hkind
  rw [List.append_assoc, List.cons_append] at htokens
  have hleads := (hshape.indents before t (after ++ [finish]) htokens hkind).1
  cases after with
  | nil => simp [hfinish, Kind.isStructural] at hleads
  | cons u after => exact hleads

/-- The program of a source that is accepted is supported. -/
theorem supported_check {source : String} (h : (check source).diagnostics = []) :
    Stmt.EachSupported (check source).program := by
  obtain ⟨-, hderives⟩ := check_eq_clean.mp (check_eq_of_diagnostics h)
  exact hderives.supported (indentsLead_bodyOf source)

end Offside
