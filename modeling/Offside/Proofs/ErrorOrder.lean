import Offside.Proofs.StmtAbreast

/-!
# The order of syntax errors

Readers consume tokens from the front, and blame a token in front of the place where parsing resumes
behind the error: the next one, which is always skipped, or an equals sign that was consumed. So the
tokens that are blamed one after the other stand in this order in the stream, and only the end of
the input may be blamed repeatedly.
-/

namespace Offside

open Stmt (resume)

/-! ## Readers -/

namespace Reader

variable {α β : Type} {ts : List Token}

/-- How a reader deals with the tokens that it is given: what is left was given to it, and the
blamed token was given to it in front of what is left when parsing resumes. -/
def Orderly (ts : List Token) : EStateM.Result SyntaxError (List Token) α → Prop
  | .ok _ rest => rest.Sublist ts
  | .error e rest =>
    match e.blamed with
    | none => rest = []
    | some t => (t :: resume rest).Sublist ts

/-- A reader that is orderly with whatever it is given. -/
def Advances (r : Reader α) : Prop := ∀ ts, Orderly ts (r ts)

/-- What was orderly with a part of the tokens is so with all of them. -/
theorem Orderly.mono {ts us : List Token} {result : EStateM.Result SyntaxError (List Token) α}
    (h : Orderly us result) (hus : us.Sublist ts) : Orderly ts result := by
  rcases result with ⟨a, rest⟩ | ⟨⟨fault, _ | t⟩, rest⟩
  · exact List.Sublist.trans h hus
  · exact h
  · exact List.Sublist.trans h hus

namespace Advances

/-- Reading nothing leaves the tokens. -/
theorem pure (a : α) : Advances (Pure.pure a) := fun _ => List.Sublist.refl _

/-- Of two readers one after the other, the second one goes on where the first one stopped. -/
theorem bind {r : Reader α} {k : α → Reader β} (hr : Advances r) (hk : ∀ a, Advances (k a)) :
    Advances (r >>= k) := by
  intro ts
  have h := hr ts
  simp only [Bind.bind, EStateM.bind]
  cases hrun : r ts with
  | ok a rest =>
    rw [hrun] at h
    exact (hk a rest).mono h
  | error e rest =>
    rw [hrun] at h
    exact h

/-- A choice between readers is one of them. -/
theorem ite {c : Prop} [Decidable c] {r q : Reader α} (hr : Advances r) (hq : Advances q) :
    Advances (if c then r else q) := by
  split
  · exact hr
  · exact hq

/-- An expectation blames the token that stands there and leaves it. -/
theorem fail (what : Expectation) : Advances (Reader.fail what : Reader α) := by
  rintro (_ | ⟨t, ts⟩)
  · rfl
  · exact (Stmt.resumeAfter_suffix t ts).sublist.cons_cons t

/-- Looking at the next token leaves it. -/
theorem nextIs (kind : Kind) : Advances (Reader.nextIs kind) := fun _ => List.Sublist.refl _

/-- A token that is accepted is taken off the front. -/
theorem acceptIf (p : Kind → Bool) : Advances (Reader.acceptIf p) := by
  rintro (_ | ⟨t, ts⟩)
  · exact List.Sublist.refl _
  · rw [Reader.acceptIf]
    split
    · exact List.sublist_cons_self t ts
    · exact List.Sublist.refl _

/-- So is a token of one kind. -/
theorem accept (kind : Kind) : Advances (Reader.accept kind) := acceptIf _

/-- So is a token that has to be there, and otherwise the one in its place is blamed. -/
theorem expect (kind : Kind) (what : Expectation) : Advances (Reader.expect kind what) := by
  rintro (_ | ⟨t, ts⟩)
  · exact fail what []
  · rw [Reader.expect]
    split
    · exact List.sublist_cons_self t ts
    · exact fail what (t :: ts)

/-- Tokens of some kinds are taken off the front. -/
theorem takeWhile (p : Kind → Bool) : Advances (Reader.takeWhile p) :=
  fun _ => List.dropWhile_sublist _

/-- So are line ends. -/
theorem skipNewlines : Advances Reader.skipNewlines := fun _ => List.dropWhile_sublist _

/-- Reading again and again goes on in one direction, by induction on the rounds. -/
theorem collect {action : Reader (Option α)} (haction : Advances action) (done : List α)
    (limit : Nat) : Advances (Offside.collect action done limit) := by
  induction limit generalizing done with
  | zero => exact pure _
  | succ limit ih =>
    refine haction.bind fun found => ?_
    cases found with
    | none => exact pure _
    | some a => exact ih _

end Advances

end Reader

/-! ## Expressions -/

namespace Expr

open Reader

variable {expression operand : Reader Expr}

/-- An operator and its right operand are read one after the other. -/
theorem advances_readTail (operators : List Kind) (hoperand : operand.Advances) :
    (readTail operators operand).Advances := by
  refine (Advances.acceptIf _).bind fun operator => ?_
  cases operator with
  | none => exact .pure _
  | some operator => exact hoperand.bind fun _ => .pure _

/-- A chain of operations goes on in one direction. -/
theorem advances_readLevel (limit : Nat) (level : Level) (hoperand : operand.Advances) :
    (readLevel limit level operand).Advances :=
  hoperand.bind fun _ => ((advances_readTail _ hoperand).collect [] limit).bind fun _ => .pure _

/-- So do unary operators and powers. -/
theorem advances_readPrefixed (limit : Nat) (hoperand : operand.Advances) :
    (readPrefixed limit operand).Advances :=
  (Advances.takeWhile _).bind fun _ => (hoperand.bind fun _ =>
    ((advances_readTail _ hoperand).collect [] limit).bind fun _ => .pure _).bind fun _ => .pure _

/-- So do items separated by commas. -/
theorem advances_readItems (limit : Nat) (hexpression : expression.Advances) (closing : Symbol) :
    (readItems limit expression closing).Advances := by
  refine (Advances.nextIs _).bind fun empty => .ite (.pure _) ?_
  exact hexpression.bind fun _ =>
    ((advances_readTail _ hexpression).collect [] limit).bind fun _ => .pure _

/-- So does the index behind a name. -/
theorem advances_readIndex (hexpression : expression.Advances) (name : Token) :
    (readIndex expression name).Advances := by
  have hend (index : Expr) : Advances (do
      let _ ← Reader.expect (.symbol .rightBracket) .indexEnd
      return index) :=
    (Advances.expect _ _).bind fun _ => .pure _
  refine hexpression.bind fun start => (Advances.accept _).bind fun colon => ?_
  cases colon with
  | none => exact hend _
  | some _ =>
    refine hexpression.bind fun stop => (Advances.accept _).bind fun colon => ?_
    cases colon with
    | none => exact hend _
    | some _ => exact hexpression.bind fun step => hend _

/-- So does what may follow a name. -/
theorem advances_readName (limit : Nat) (hexpression : expression.Advances) (name : Token) :
    (readName limit expression name).Advances := by
  refine (Advances.accept _).bind fun bracket => .ite (advances_readIndex hexpression name) ?_
  refine (Advances.accept _).bind fun paren => .ite ?_ (.pure _)
  exact (advances_readItems limit hexpression _).bind fun _ => (Advances.expect _ _).bind fun _ =>
    .pure _

/-- Whatever the first token of an operand starts is read behind it. -/
theorem advances_readPrimaryFrom {limit : Nat} (hexpression : expression.Advances) {first : Token}
    {rest : Reader Expr} (h : readPrimaryFrom limit expression first = some rest) :
    rest.Advances := by
  unfold readPrimaryFrom at h
  split at h <;> cases h
  case h_6 =>
    exact hexpression.bind fun _ => (Advances.expect _ _).bind fun _ => .pure _
  case h_7 =>
    exact (advances_readItems limit hexpression _).bind fun _ => (Advances.expect _ _).bind fun _ =>
      .pure _
  case h_8 => exact advances_readName limit hexpression first
  all_goals exact .pure _

/-- Operands are read in one direction. -/
theorem advances_readPrimary (limit : Nat) (hexpression : expression.Advances) :
    (readPrimary limit expression).Advances := by
  rintro (_ | ⟨t, ts⟩)
  · exact Advances.fail _ []
  · rw [readPrimary]
    split
    next rest hrest =>
      exact (advances_readPrimaryFrom hexpression hrest ts).mono (List.sublist_cons_self t ts)
    · exact Advances.fail _ (t :: ts)

/-- So are operations of all levels. -/
theorem advances_readOperation (limit : Nat) (hexpression : expression.Advances) :
    (readOperation limit expression).Advances := by
  rw [readOperation]
  generalize levels = levels
  induction levels with
  | nil => exact advances_readPrefixed limit (advances_readPrimary limit hexpression)
  | cons level levels ih => exact advances_readLevel limit level ih

/-- An invalid target is blamed on its equals sign, which stands in front of the value. -/
theorem advances_readAssignment (limit : Nat) (hexpression : expression.Advances) :
    (readAssignment limit expression).Advances := by
  refine (advances_readOperation limit hexpression).bind fun target => ?_
  rintro (_ | ⟨t, ts⟩)
  · exact List.Sublist.refl _
  · by_cases hsign : (t.kind == .symbol .equal) = true
    · have haccept : Reader.accept (.symbol .equal) (t :: ts) = .ok (some t) ts := if_pos hsign
      simp only [Bind.bind, EStateM.bind, haccept]
      have hvalue := hexpression ts
      cases hrun : expression ts with
      | ok value rest =>
        rw [hrun] at hvalue
        have hrest : rest.Sublist ts := hvalue
        -- The sign was given in front of the value, so it is in front of what is left.
        cases target with
        | «variable» name => exact hrest.cons t
        | _ => exact ((Stmt.resume_suffix rest).sublist.trans hrest).cons_cons t
      | error e rest =>
        rw [hrun] at hvalue
        exact hvalue.mono (List.sublist_cons_self t ts)
    · have haccept : Reader.accept (.symbol .equal) (t :: ts) = .ok none (t :: ts) := if_neg hsign
      simp only [Bind.bind, EStateM.bind, haccept]
      exact List.Sublist.refl _

/-- Expressions are read in one direction, by induction on the depth to which they may be nested. -/
theorem advances_read (limit : Nat) : (read limit).Advances := by
  induction limit with
  | zero => exact .fail _
  | succ limit ih => exact advances_readAssignment limit ih

end Expr

/-! ## Recorded errors -/

/-- The errors recorded so far blame tokens in the order in which they were given, all of them in
front of the tokens that are left; none is left if the end of the input was blamed. -/
def Parsing.Ordered (given : List Token) (s : Parsing) : Prop :=
  ∃ (blamed : List Token) (atEnd : Nat), s.errors.reverse.map SyntaxError.blamed =
      blamed.map some ++ List.replicate atEnd none ∧
    (blamed ++ s.rest).Sublist given ∧ (0 < atEnd → s.rest = [])

namespace Parsing.Ordered

variable {given : List Token} {s : Parsing}

/-- Consuming tokens does not disturb the order. -/
theorem consume {rest : List Token} (h : s.Ordered given) (hrest : rest.Sublist s.rest) :
    Parsing.Ordered given ⟨rest, s.errors⟩ := by
  obtain ⟨blamed, atEnd, herrors, hsublist, hend⟩ := h
  refine ⟨blamed, atEnd, herrors, (hrest.append_left blamed).trans hsublist, fun hsome => ?_⟩
  rw [hend hsome] at hrest
  exact List.sublist_nil.mp hrest

/-- An error of an orderly reader goes behind those recorded before. -/
theorem record {α : Type} {rest : List Token} {e : SyntaxError} (h : s.Ordered given)
    (he : Reader.Orderly s.rest
      (.error e rest : EStateM.Result SyntaxError (List Token) α)) :
    Parsing.Ordered given ⟨resume rest, e :: s.errors⟩ := by
  obtain ⟨blamed, atEnd, herrors, hsublist, hend⟩ := h
  obtain ⟨fault, _ | t⟩ := e
  · -- The end of the input is blamed, and nothing is left.
    have hrest : rest = [] := he
    subst hrest
    refine ⟨blamed, atEnd + 1, ?_, ?_, fun _ => rfl⟩
    · rw [List.reverse_cons, List.map_append, herrors, List.replicate_succ', ← List.append_assoc]
      rfl
    · exact ((List.nil_sublist _).append_left blamed).trans hsublist
  · -- Some token was left, so the end of the input was not blamed yet.
    have hleft : (t :: resume rest).Sublist s.rest := he
    have hzero : atEnd = 0 := Nat.eq_zero_of_not_pos fun hpositive => by
      rw [hend hpositive] at hleft
      cases hleft
    subst hzero
    refine ⟨blamed ++ [t], 0, ?_, ?_, nofun⟩
    · rw [List.reverse_cons, List.map_append, herrors]
      simp
    · rw [List.append_assoc, List.singleton_append]
      exact (hleft.append_left blamed).trans hsublist

end Parsing.Ordered

namespace Parser

variable {α β : Type} {given : List Token} {p : Parser α}

/-- What is recorded when a parser ends is in order, the error with which it fails included. -/
def Settled (given : List Token) : EStateM.Result SyntaxError Parsing α → Prop
  | .ok _ s => s.Ordered given
  | .error e s => Parsing.Ordered given ⟨resume s.rest, e :: s.errors⟩

/-- A parser that keeps the errors in order. -/
def Keeps (given : List Token) (p : Parser α) : Prop := ∀ s, s.Ordered given → Settled given (p s)

/-- Nothing is read or reported. -/
theorem Keeps.pure (a : α) : Keeps given (Pure.pure a) := fun _ h => h

/-- Of two parsers one after the other, the second one starts with what the first one left. -/
theorem Keeps.bind {k : α → Parser β} (hp : Keeps given p) (hk : ∀ a, Keeps given (k a)) :
    Keeps given (p >>= k) := by
  intro s hs
  have h := hp s hs
  simp only [Bind.bind, EStateM.bind]
  cases hrun : p s with
  | ok a s' =>
    rw [hrun] at h
    exact hk a s' h
  | error e s' =>
    rw [hrun] at h
    exact h

/-- A reader that goes on in one direction reports in order. -/
theorem Keeps.ofReader {r : Reader α} (hr : r.Advances) : Keeps given (Parser.ofReader r) := by
  intro s hs
  have h := hr s.rest
  unfold Parser.ofReader
  cases hrun : r s.rest with
  | ok a rest =>
    rw [hrun] at h
    exact hs.consume h
  | error e rest =>
    rw [hrun] at h
    exact hs.record h

/-- A parser behind the next token. -/
theorem Keeps.behind (hp : Keeps given p) {t : Token} {ts : List Token}
    {errors : List SyntaxError} (hs : Parsing.Ordered given ⟨t :: ts, errors⟩) :
    Settled given (p ⟨ts, errors⟩) :=
  hp _ (hs.consume (List.sublist_cons_self t ts))

end Parser

namespace Stmt

open Offside.Parser Reader

variable {given : List Token} {statement : Parser Stmt}

/-- Recovering reports an error and goes on behind the token that it blames. -/
theorem keeps_recover (hstatement : statement.Keeps given) : (recover statement).Keeps given := by
  intro s hs
  have h := hstatement s hs
  unfold recover
  cases hrun : statement s with
  | ok stmt s' =>
    rw [hrun] at h
    exact h
  | error e s' =>
    rw [hrun] at h
    exact h

/-- The next statement is read behind line ends. -/
theorem keeps_readNext (stop : Kind → Bool) (hstatement : statement.Keeps given) :
    (readNext stop statement).Keeps given := by
  rintro ⟨ts, errors⟩ hs
  have hskipped : Parsing.Ordered given ⟨dropNewlines ts, errors⟩ :=
    hs.consume (List.dropWhile_sublist _)
  rw [readNext_apply]
  split
  next hnone =>
    rw [hnone] at hskipped
    exact hskipped
  next t rest hsome =>
    rw [hsome] at hskipped
    split
    · exact hskipped
    · exact (keeps_recover hstatement).bind (fun found => .pure (some found)) _ hskipped

/-- Reading statements again and again reports in order, by induction on the rounds. -/
theorem keeps_collect {α : Type} {action : Parser (Option α)} (haction : action.Keeps given)
    (done : List α) (limit : Nat) : Keeps given (collect action done limit) := by
  induction limit generalizing done with
  | zero => exact .pure _
  | succ limit ih =>
    refine haction.bind fun found => ?_
    cases found with
    | none => exact .pure _
    | some a => exact ih _

/-- So does reading a sequence of statements. -/
theorem keeps_readSequence (stop : Kind → Bool) (limit : Nat) (hstatement : statement.Keeps given) :
    (readSequence limit stop statement).Keeps given :=
  (keeps_collect (keeps_readNext stop hstatement) [] limit).bind fun _ => .pure _

/-- So does expecting a token. -/
theorem keeps_expect (kind : Kind) (what : Expectation) :
    Keeps given (Parser.ofReader (Reader.expect kind what)) :=
  .ofReader (.expect kind what)

/-- So does reading an expression. -/
theorem keeps_expression (limit : Nat) : Keeps given (Parser.ofReader (Expr.read limit)) :=
  .ofReader (Expr.advances_read limit)

/-- So does reading an indented block, where the end of it may be missed. -/
theorem keeps_readBlock (limit : Nat) (hstatement : statement.Keeps given) :
    (readBlock limit statement).Keeps given :=
  (Keeps.ofReader .skipNewlines).bind fun _ => (keeps_expect _ _).bind fun _ =>
    (keeps_readSequence _ limit hstatement).bind fun _ => (keeps_expect _ _).bind fun _ => .pure _

/-- So does reading the body behind a header. -/
theorem keeps_readBody (limit : Nat) (hstatement : statement.Keeps given) (header : Header) :
    (readBody limit statement header).Keeps given :=
  (keeps_expect _ _).bind fun _ => (keeps_expect _ _).bind fun _ => keeps_readBlock limit hstatement

/-- So does reading the alternatives of a branch, by induction on their number. -/
theorem keeps_readAlternative (limit : Nat) (hstatement : statement.Keeps given) (count : Nat) :
    (readAlternative limit statement count).Keeps given := by
  induction count with
  | zero => exact .pure _
  | succ count ih =>
    rw [readAlternative]
    refine (Keeps.ofReader (.accept _)).bind fun elif => ?_
    split
    · exact (keeps_expression limit).bind fun _ => (keeps_readBody limit hstatement _).bind fun _ =>
        ih.bind fun _ => .pure _
    · refine (Keeps.ofReader (.accept _)).bind fun else_ => ?_
      split
      · exact (keeps_readBody limit hstatement _).bind fun _ => .pure _
      · exact .pure _

/-- So does reading a branch. -/
theorem keeps_readBranch (limit : Nat) (hstatement : statement.Keeps given) :
    (readBranch limit statement).Keeps given :=
  (keeps_expression limit).bind fun _ => (keeps_readBody limit hstatement _).bind fun _ =>
    (keeps_readAlternative limit hstatement limit).bind fun _ => .pure _

/-- So does reading a while loop. -/
theorem keeps_readLoop (limit : Nat) (hstatement : statement.Keeps given) :
    (readLoop limit statement).Keeps given :=
  (keeps_expression limit).bind fun _ => (keeps_readBody limit hstatement _).bind fun _ => .pure _

/-- The bounds of a range are read in one direction. -/
theorem advances_readRange (limit : Nat) : (readRange limit).Advances := by
  have hend (bounds : Option Expr × Expr × Option Expr) : Advances (do
      let _ ← Reader.expect (.symbol .rightParen) .rangeEnd
      return bounds) :=
    (Advances.expect _ _).bind fun _ => .pure _
  refine (Advances.expect _ _).bind fun _ => (Expr.advances_read limit).bind fun first => ?_
  refine (Advances.accept _).bind fun comma => ?_
  cases comma with
  | none => exact hend _
  | some _ =>
    refine (Expr.advances_read limit).bind fun second => (Advances.accept _).bind fun comma => ?_
    cases comma with
    | none => exact hend _
    | some _ => exact (Expr.advances_read limit).bind fun third => hend _

/-- A for loop reports in order. -/
theorem keeps_readFor (limit : Nat) (hstatement : statement.Keeps given) :
    (readFor limit statement).Keeps given := by
  refine (keeps_expect _ _).bind fun _ => (keeps_expect _ _).bind fun _ => ?_
  refine (Keeps.ofReader (.accept _)).bind fun range => ?_
  cases range with
  | none =>
    exact (keeps_expression limit).bind fun _ => (keeps_readBody limit hstatement _).bind fun _ =>
      .pure _
  | some _ =>
    exact (Keeps.ofReader (advances_readRange limit)).bind fun _ =>
      (keeps_readBody limit hstatement _).bind fun _ => .pure _

/-- Parameters are read in one direction. -/
theorem advances_readParameters (limit : Nat) : (readParameters limit).Advances := by
  have htail : readParameterTail.Advances := by
    refine (Advances.accept _).bind fun comma => ?_
    cases comma with
    | none => exact .pure _
    | some _ => exact (Advances.expect _ _).bind fun _ => .pure _
  have hnames : (readParameterNames limit).Advances := by
    refine (Advances.nextIs _).bind fun empty => .ite (.pure _) ?_
    exact (Advances.expect _ _).bind fun _ => (htail.collect [] limit).bind fun _ => .pure _
  exact (Advances.expect _ _).bind fun _ => hnames.bind fun _ => (Advances.expect _ _).bind fun _ =>
    .pure _

/-- The definition of a function reports in order. -/
theorem keeps_readDefinition (limit : Nat) (hstatement : statement.Keeps given) :
    (readDefinition limit statement).Keeps given :=
  (keeps_expect _ _).bind fun _ => (Keeps.ofReader (advances_readParameters limit)).bind fun _ =>
    (keeps_readBody limit hstatement _).bind fun _ => .pure _

/-- A return statement is read in one direction. -/
theorem advances_readReturn (limit : Nat) (keyword : Token) :
    (readReturn limit keyword).Advances := by
  intro ts
  rw [readReturn_apply]
  split
  · exact (Expr.advances_read limit).bind (fun _ => Advances.skipNewlines.bind fun _ => .pure _) ts
  · exact Advances.skipNewlines ts

/-- So is a print statement. -/
theorem advances_readPrint (limit : Nat) (keyword : Token) :
    (readPrint limit keyword).Advances :=
  (Advances.expect _ _).bind fun _ => (Expr.advances_read limit).bind fun _ =>
    (Advances.expect _ _).bind fun _ => Advances.skipNewlines.bind fun _ => .pure _

/-- So is an assignment. -/
theorem advances_readAssign (limit : Nat) (name : Token) : (readAssign limit name).Advances :=
  (Advances.expect _ _).bind fun _ => (Expr.advances_read limit).bind fun _ =>
    Advances.skipNewlines.bind fun _ => .pure _

/-- So is an expression as a statement. -/
theorem advances_readExpression (limit : Nat) : (readExpression limit).Advances :=
  (Expr.advances_read limit).bind fun _ => Advances.skipNewlines.bind fun _ => .pure _

/-- Statements of every form report in order. -/
theorem keeps_readForm (limit : Nat) (hstatement : statement.Keeps given) :
    (readForm limit statement).Keeps given := by
  have hexpression : Keeps given (Parser.ofReader (readExpression limit)) :=
    .ofReader (advances_readExpression limit)
  rintro ⟨_ | ⟨t, ts⟩, errors⟩ hs
  · exact hexpression _ hs
  · simp only [readForm, List.drop_succ_cons, List.drop_zero]
    generalize t.kind = kind
    split
    · exact (keeps_readBranch limit hstatement).behind hs
    · exact (keeps_readLoop limit hstatement).behind hs
    · exact (keeps_readFor limit hstatement).behind hs
    · exact (keeps_readDefinition limit hstatement).behind hs
    · exact (Keeps.ofReader (advances_readReturn limit t)).behind hs
    · exact (Keeps.ofReader (advances_readPrint limit t)).behind hs
    · exact ((keeps_readBlock limit hstatement).bind fun body => .pure (Stmt.block body)) _ hs
    · split
      · exact (Keeps.ofReader (advances_readAssign limit t)).behind hs
      · exact hexpression _ hs
    · exact hexpression _ hs

/-- So do statements of any depth of nesting. -/
theorem keeps_read (limit : Nat) : (read limit).Keeps given := by
  induction limit with
  | zero => exact .ofReader (.fail _)
  | succ limit ih => exact keeps_readForm limit ih

end Stmt

/-- The syntax errors of a token stream blame tokens in the order of the stream, except for errors
at the end of the input, which come last. -/
theorem blamed_sublist (tokens : List Token) :
    ∃ (blamed : List Token) (atEnd : Nat), (parse tokens).errors.map SyntaxError.blamed =
        blamed.map some ++ List.replicate atEnd none ∧
      blamed.Sublist (tokensBeforeEnd tokens) := by
  let body := tokensBeforeEnd tokens
  have hstart : Parsing.Ordered body ⟨body, []⟩ := ⟨[], 0, rfl, List.Sublist.refl _, nofun⟩
  have hstatement : (Stmt.read (body.length + 1)).Keeps body := Stmt.keeps_read _
  have hend := Stmt.keeps_readSequence (fun _ => false) (body.length + 1) hstatement _ hstart
  rw [parse_eq]
  cases hrun : Stmt.readSequence (body.length + 1) (fun _ => false) (Stmt.read (body.length + 1))
    ⟨body, []⟩ with
  | ok program s =>
    rw [hrun] at hend
    obtain ⟨blamed, atEnd, herrors, hsublist, -⟩ := hend
    exact ⟨blamed, atEnd, herrors, (List.sublist_append_left ..).trans hsublist⟩
  | error e s =>
    rw [hrun] at hend
    obtain ⟨blamed, atEnd, herrors, hsublist, -⟩ := hend
    exact ⟨blamed, atEnd, herrors, (List.sublist_append_left ..).trans hsublist⟩

end Offside
