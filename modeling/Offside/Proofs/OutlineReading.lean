import Offside.Proofs.TreeOutlines

/-!
# Reading outlines

The outline of a tree is read back item by item. A list is told by its first word, and the operators
by the number of their operands; the clauses of a branch are gathered from the last entry to the
first. What comes back is the tree without the positions of its tokens.
-/

namespace Offside

/-- A token without its position. -/
def Token.bare (t : Token) : Token := { t with line := 0, span := ⟨0, 0⟩ }

/-! ## Reading outlines -/

/-- The name that a word is. -/
def Form.name : Form → Token
  | .word letters => ⟨.identifier, letters, 0, ⟨0, 0⟩⟩
  | _ => default

/-- The operator or reserved word among some that is spelled in the given way. -/
def amongSpelled? (kinds : List Kind) (spelling : String) : Option Token :=
  (kinds.find? (·.spelling? == some spelling)).map fun kind => ⟨kind, spelling, 0, ⟨0, 0⟩⟩

/-- The expression that a list with the given head stands for. Names are read as variables first. -/
def Expr.ofList? (head : String) (items : List Expr) : Option Expr :=
  match head, items with
  | "group", [inner] => some (.grouping inner)
  | "=", [.variable name, value] => some (.assign name value)
  | "list", items => some (.list items)
  | "index", [.variable name, position] => some (.element name position)
  | "index", [.variable name, start, stop] => some (.slice name start stop)
  | "index", [.variable name, start, stop, step] => some (.stride name start stop step)
  | "call", .variable name :: arguments => some (.call name arguments)
  | operator, [operand] =>
    (amongSpelled? Expr.prefixOperators operator).map fun t => .unary t operand
  | operator, [left, right] =>
    match amongSpelled? logicalOperators operator with
    | some t => some (.logical left t right)
    | none => (amongSpelled? binaryOperators operator).map fun t => .binary left t right
  | _, _ => none

section Reading

variable (number : String → Float)

/-- The expression that a word stands for. -/
def Expr.ofWord? (letters : String) : Option Expr :=
  if letters.toList.head?.any Piece.isWordStart then
    match Keyword.ofText? letters with
    | some .true_ => some (.literal (.boolean true))
    | some .false_ => some (.literal (.boolean false))
    | some .none_ => some (.literal .none)
    | some _ => none
    | none => some (.variable (Form.word letters).name)
  else some (.literal (.number (number letters)))

mutual

/-- The expression with the given form. -/
def Form.expr? : Form → Option Expr
  | .word letters => Expr.ofWord? number letters
  | .quoted contents => some (.literal (.string contents))
  | .list (.word head :: items) => (Form.exprs? items).bind (Expr.ofList? head)
  | .list _ => none

/-- The expressions with the given forms. -/
def Form.exprs? : List Form → Option (List Expr)
  | [] => some []
  | f :: fs => f.expr?.bind fun e => (Form.exprs? fs).map (e :: ·)

end

/-- The statement on a line of its own that has the given items. -/
def Stmt.ofLine? : List Form → Option Stmt
  | [.word "expr", value] => (value.expr? number).map .expression
  | [.word "print", value] =>
    (value.expr? number).map (.print ⟨.keyword .print_, "print", 0, ⟨0, 0⟩⟩)
  | [.word "assign", name, value] => (value.expr? number).map (.assign name.name)
  | .word "return" :: value =>
    (Form.exprs? number value).map fun es =>
      .return ⟨.keyword .return_, "return", 0, ⟨0, 0⟩⟩ es.head?
  | _ => none

/-- The counting loop with the given bounds. -/
def Stmt.ofBounds? (name : Token) (body : List Stmt) : List Expr → Option Stmt
  | [stop] => some (.forRange name none stop none body)
  | [start, stop] => some (.forRange name (some start) stop none body)
  | [start, stop, step] => some (.forRange name (some start) stop (some step) body)
  | _ => none

/-- The statement with the given items in front of the statements inside. -/
def Stmt.compound? : List Form → List Stmt → Option Stmt
  | [.word "block"], body => some (.block body)
  | [.word "while", condition], [.block body] =>
    (condition.expr? number).map fun e => .loop e body
  | [.word "for", name, .list (.word "range" :: bounds)], [.block body] =>
    (Form.exprs? number bounds).bind (Stmt.ofBounds? name.name body)
  | [.word "for", name, iterable], [.block body] =>
    (iterable.expr? number).map fun e => .forEach name.name e body
  | [.word "def", name, .list parameters], body =>
    some (.define name.name (parameters.map Form.name) body)
  | _, _ => none

/-- The clauses and statements from an entry on, in front of those of the entries behind it. -/
def Stmt.ofHead? (items : List Form) (inner : List Stmt) :
    Alternative × List Stmt → Option (Alternative × List Stmt)
  | (otherwise, rest) =>
    match items, inner with
    | [.word "if", condition], [.block body] =>
      (condition.expr? number).map fun e => (.nothing, .branch e body otherwise :: rest)
    | [.word "elif", condition], [.block body] =>
      (condition.expr? number).map fun e => (.another e body otherwise, rest)
    | [.word "else"], [.block body] => some (.last body, rest)
    | items, inner => (Stmt.compound? number items inner).map fun s => (.nothing, s :: rest)

mutual

/-- The clauses and statements from an entry on. -/
def Stmt.before? : Entry → Alternative × List Stmt → Option (Alternative × List Stmt)
  | .leaf items, (_, rest) => (Stmt.ofLine? number items).map fun s => (.nothing, s :: rest)
  | .node items inner, behind =>
    (Stmt.ofEntries? inner).bind fun (_, body) => Stmt.ofHead? number items body behind

/-- The clauses at the front of some entries, and the statements behind them. -/
def Stmt.ofEntries? : List Entry → Option (Alternative × List Stmt)
  | [] => some (.nothing, [])
  | e :: es => (Stmt.ofEntries? es).bind (Stmt.before? e)

end

end Reading

/-! ## Reading the outline of a legible tree -/

/-- The spelling of a name gives back the name itself. -/
theorem Token.IsName.bare {t : Token} (h : t.IsName) : (Form.word t.lexeme).name = t.bare := by
  obtain ⟨kind, lexeme, line, span⟩ := t
  obtain rfl : kind = .identifier := h.kind
  rfl

section Operators

variable {t : Token}

/-- An operator in front of one operand is read as a unary one. -/
theorem Expr.ofList?_unary (h : t.IsAmong prefixOperators) (e : Expr) :
    ofList? t.lexeme [e] = some (.unary t.bare e) := by
  obtain ⟨kind, lexeme, line, span⟩ := t
  obtain ⟨hmem, hspelling⟩ := h
  simp only [prefixOperators, List.mem_cons, List.not_mem_nil, or_false] at hmem
  rcases hmem with rfl | rfl <;> cases hspelling <;> rfl

/-- A logical operator in front of two operands is read as one. -/
theorem Expr.ofList?_logical (h : t.IsAmong logicalOperators) (left right : Expr) :
    ofList? t.lexeme [left, right] = some (.logical left t.bare right) := by
  obtain ⟨kind, lexeme, line, span⟩ := t
  obtain ⟨hmem, hspelling⟩ := h
  simp only [logicalOperators, List.mem_cons, List.not_mem_nil, or_false] at hmem
  rcases hmem with rfl | rfl <;> cases hspelling <;> rfl

/-- A binary operator in front of two operands is read as one. -/
theorem Expr.ofList?_binary (h : t.IsAmong binaryOperators) (left right : Expr) :
    ofList? t.lexeme [left, right] = some (.binary left t.bare right) := by
  obtain ⟨kind, lexeme, line, span⟩ := t
  obtain ⟨hmem, hspelling⟩ := h
  simp only [binaryOperators, List.mem_cons, List.not_mem_nil, or_false] at hmem
  rcases hmem with rfl | rfl | rfl | rfl | rfl | rfl | rfl | rfl | rfl | rfl | rfl | rfl <;>
    cases hspelling <;> rfl

end Operators

/-- The text of a finite number is read back as the number. -/
def ReadsBack (number : String → Float) : Prop :=
  ∀ x, Number.isFinite x → number (Number.text .listing x) = x

section Words

variable {number : String → Float}

/-- A name is read as a variable. -/
theorem Expr.ofWord?_name {t : Token} (h : t.IsName) :
    ofWord? number t.lexeme = some (.variable t.bare) := by
  obtain ⟨c, cs, hletters, hc, -⟩ := h.letters
  have hfirst : t.lexeme.toList.head?.any Piece.isWordStart := by simp [hletters, hc]
  rw [ofWord?, if_pos hfirst, h.free, h.bare]

/-- No word starts with a digit. -/
theorem Piece.isWordStart_eq_false_of_isDigit {c : Char} (hc : c.isDigit) :
    Piece.isWordStart c = false := by
  have hunderscore : c ≠ '_' := by
    rintro rfl
    cases hc
  grind [Piece.isWordStart, Char.isDigit, Char.isAlpha, Char.isUpper, Char.isLower]

/-- The text of a finite number is read as that number. -/
theorem Expr.ofWord?_number {x : Float} (h : Number.isFinite x)
    (hnumber : number (Number.text .listing x) = x) :
    ofWord? number (Number.text .listing x) = some (.literal (.number x)) := by
  obtain ⟨c, cs, hletters, hc, -⟩ := Number.exists_text_eq_cons h .listing
  have hstart : Piece.isWordStart c = false := by
    rcases hc with hc | rfl
    · exact Piece.isWordStart_eq_false_of_isDigit hc
    · rfl
  have hfirst : ¬(Number.text .listing x).toList.head?.any Piece.isWordStart := by
    simp [hletters, hstart]
  rw [ofWord?, if_neg hfirst, hnumber]

/-- The form of a legible literal is read as the literal. -/
theorem Literal.Legible.expr?_form {value : Literal} (h : value.Legible)
    (hnumber : ReadsBack number) :
    value.form.expr? number = some (.literal value) := by
  cases value with
  | number x => exact Expr.ofWord?_number h (hnumber x h)
  | string contents => rfl
  | boolean value => cases value <;> rfl
  | none => rfl

/-- A list is read by its head, once its items are read. -/
theorem Form.expr?_list {head : String} {items : List Form} {es : List Expr}
    (h : Form.exprs? number items = some es) :
    (Form.list (.word head :: items)).expr? number = Expr.ofList? head es := by
  rw [Form.expr?, h, Option.bind_some]

/-- Forms are read in order. -/
theorem Form.exprs?_cons {f : Form} {fs : List Form} {e : Expr} {es : List Expr}
    (h : f.expr? number = some e) (h' : Form.exprs? number fs = some es) :
    Form.exprs? number (f :: fs) = some (e :: es) := by
  rw [Form.exprs?, h, h', Option.bind_some, Option.map_some]

/-- No forms are read as no expressions. -/
theorem Form.exprs?_nil : Form.exprs? number [] = some [] := rfl

/-- The form of a name is read as the variable. -/
theorem Token.IsName.expr? {t : Token} (h : t.IsName) :
    (Form.word t.lexeme).expr? number = some (.variable t.bare) := by
  rw [Form.expr?, Expr.ofWord?_name h]

mutual

/-- The form of an expression is read back as the expression. -/
theorem Expr.Legible.expr?_form (hnumber : ReadsBack number) : ∀ {e : Expr}, e.Legible →
    e.form.expr? number = some (e.move Token.bare)
  | .literal _, h => Literal.Legible.expr?_form h hnumber
  | .variable _, h => Token.IsName.expr? h
  | .grouping inner, h => by
    have hinner : inner.Legible := h
    rw [Expr.form, Form.expr?_list (Form.exprs?_cons (hinner.expr?_form hnumber) Form.exprs?_nil)]
    rfl
  | .unary _ _, ⟨hoperator, hoperand⟩ => by
    rw [Expr.form, Form.expr?_list (Form.exprs?_cons (hoperand.expr?_form hnumber) Form.exprs?_nil),
      Expr.ofList?_unary hoperator]
    rfl
  | .binary _ _ _, ⟨hoperator, hleft, hright⟩ => by
    rw [Expr.form, Form.expr?_list (Form.exprs?_cons (hleft.expr?_form hnumber)
      (Form.exprs?_cons (hright.expr?_form hnumber) Form.exprs?_nil)),
      Expr.ofList?_binary hoperator]
    rfl
  | .logical _ _ _, ⟨hoperator, hleft, hright⟩ => by
    rw [Expr.form, Form.expr?_list (Form.exprs?_cons (hleft.expr?_form hnumber)
      (Form.exprs?_cons (hright.expr?_form hnumber) Form.exprs?_nil)),
      Expr.ofList?_logical hoperator]
    rfl
  | .assign _ _, ⟨hname, hvalue⟩ => by
    rw [Expr.form, Form.expr?_list (Form.exprs?_cons hname.expr?
      (Form.exprs?_cons (hvalue.expr?_form hnumber) Form.exprs?_nil))]
    rfl
  | .list _, h => by
    rw [Expr.form, Form.expr?_list (Expr.EachLegible.exprs?_form hnumber h)]
    rfl
  | .element _ _, ⟨hname, hposition⟩ => by
    rw [Expr.form, Form.expr?_list (Form.exprs?_cons hname.expr?
      (Form.exprs?_cons (hposition.expr?_form hnumber) Form.exprs?_nil))]
    rfl
  | .slice _ _ _, ⟨hname, hstart, hstop⟩ => by
    rw [Expr.form, Form.expr?_list (Form.exprs?_cons hname.expr?
      (Form.exprs?_cons (hstart.expr?_form hnumber) (Form.exprs?_cons (hstop.expr?_form hnumber)
        Form.exprs?_nil)))]
    rfl
  | .stride _ _ _ _, ⟨hname, hstart, hstop, hstep⟩ => by
    rw [Expr.form, Form.expr?_list (Form.exprs?_cons hname.expr?
      (Form.exprs?_cons (hstart.expr?_form hnumber) (Form.exprs?_cons (hstop.expr?_form hnumber)
        (Form.exprs?_cons (hstep.expr?_form hnumber) Form.exprs?_nil))))]
    rfl
  | .call _ _, ⟨hname, harguments⟩ => by
    rw [Expr.form, Form.expr?_list (Form.exprs?_cons hname.expr?
      (Expr.EachLegible.exprs?_form hnumber harguments))]
    rfl

/-- So is each of several forms. -/
theorem Expr.EachLegible.exprs?_form (hnumber : ReadsBack number) : ∀ {es : List Expr},
    Expr.EachLegible es →
    Form.exprs? number (Expr.formEach es) = some (Expr.moveEach Token.bare es)
  | [], _ => rfl
  | _ :: _, ⟨h, h'⟩ =>
    Form.exprs?_cons (h.expr?_form hnumber) (Expr.EachLegible.exprs?_form hnumber h')

end

/-- So is the form of an expression that may be left out. -/
theorem Expr.OptionalLegible.exprs?_form (hnumber : ReadsBack number) {e : Option Expr}
    (h : Expr.OptionalLegible e) :
    Form.exprs? number (Expr.formOptional e) = some (e.map (Expr.move Token.bare)).toList := by
  cases e with
  | none => rfl
  | some e => exact Form.exprs?_cons ((h e rfl).expr?_form hnumber) Form.exprs?_nil

/-! ## Entries -/

/-- The forms of parameter names give back the names. -/
theorem Form.map_name {names : List Token} (h : ∀ t ∈ names, t.IsName) :
    (names.map fun t => Form.word t.lexeme).map Form.name = names.map Token.bare := by
  rw [List.map_map]
  exact List.map_congr_left fun t ht => (h t ht).bare

/-- A keyword token is its keyword but for its place. -/
theorem Token.IsAmong.bare {t : Token} {k : Keyword} (h : t.IsAmong [.keyword k]) :
    t.bare = ⟨.keyword k, k.text, 0, ⟨0, 0⟩⟩ := by
  obtain ⟨kind, lexeme, line, span⟩ := t
  obtain ⟨hmem, hspelling⟩ := h
  obtain rfl := List.mem_singleton.mp hmem
  cases hspelling
  rfl

namespace Stmt

variable {items : List Form} {es inner : List Entry} {otherwise otherwise' : Alternative}
  {body rest : List Stmt}

/-- A leaf is read as a simple statement in front of the rest. -/
theorem ofEntries?_leaf {s : Stmt} (hline : ofLine? number items = some s)
    (hes : ofEntries? number es = some (otherwise, rest)) :
    ofEntries? number (.leaf items :: es) = some (.nothing, s :: rest) := by
  rw [ofEntries?, hes, Option.bind_some, before?, hline, Option.map_some]

/-- A node is read by its head, once its entries are read. -/
theorem ofEntries?_node (hinner : ofEntries? number inner = some (otherwise', body))
    (hes : ofEntries? number es = some (otherwise, rest)) :
    ofEntries? number (.node items inner :: es) =
      ofHead? number items body (otherwise, rest) := by
  rw [ofEntries?, hes, Option.bind_some, before?, hinner, Option.bind_some]

/-- So is a clause, whose entries are a block. -/
theorem ofEntries?_clause (hinner : ofEntries? number inner = some (otherwise', body))
    (hes : ofEntries? number es = some (otherwise, rest)) :
    ofEntries? number (.clause items inner :: es) =
      ofHead? number items [.block body] (otherwise, rest) := by
  have hblock : ofEntries? number [.node [.word "block"] inner] =
      some (.nothing, [.block body]) := by
    rw [ofEntries?_node hinner rfl]
    rfl
  exact ofEntries?_node hblock hes

/-- No expression is a list that begins like the bounds of a counting loop. -/
theorem ofList?_range (es : List Expr) : Expr.ofList? "range" es = none := by
  match es with
  | [] | [_] | [_, _] | _ :: _ :: _ :: _ => rfl

/-- The head of a loop over elements gives back the loop. -/
theorem compound?_forEach {f : Form} {e : Expr} (h : f.expr? number = some e) (name : Form)
    (body : List Stmt) :
    compound? number [.word "for", name, f] [.block body] = some (.forEach name.name e body) := by
  have hrange (bounds : List Form) : f ≠ .list (.word "range" :: bounds) := by
    rintro rfl
    rw [Form.expr?] at h
    obtain ⟨es, -, hes⟩ := Option.bind_eq_some_iff.mp h
    rw [ofList?_range] at hes
    cases hes
  rw [compound?, h]
  · rfl
  · exact hrange

/-- A head that is read as a compound statement stands in front of the rest. -/
theorem ofHead?_compound {s : Stmt} (h : compound? number items body = some s) :
    ofHead? number items body (otherwise, rest) = some (.nothing, s :: rest) := by
  simp only [ofHead?]
  split
  next => cases h
  next => cases h
  next => cases h
  next => rw [h, Option.map_some]

/-- The bounds of a counting loop give back the loop. -/
theorem ofBounds?_formOptional (hnumber : ReadsBack number) {start step : Option Expr} {stop : Expr}
    (hstart : Expr.OptionalLegible start) (hstop : stop.Legible)
    (hstep : Expr.OptionalLegible step) (hshape : start = none → step = none) (name : Token)
    (body : List Stmt) :
    (Form.exprs? number
      (Expr.formOptional start ++ stop.form :: Expr.formOptional step)).bind
        (ofBounds? name body) =
      some (.forRange name (start.map (Expr.move Token.bare)) (stop.move Token.bare)
        (step.map (Expr.move Token.bare)) body) := by
  have hlast := Form.exprs?_cons (hstop.expr?_form hnumber) (hstep.exprs?_form hnumber)
  cases start with
  | none =>
    obtain rfl := hshape rfl
    exact congrArg (Option.bind · (ofBounds? name body)) hlast
  | some e =>
    have hall := Form.exprs?_cons ((hstart e rfl).expr?_form hnumber) hlast
    rw [Expr.formOptional, List.cons_append, List.nil_append, hall]
    cases step <;> rfl

end Stmt

mutual

/-- The entries of a legible statement are read as the statement. -/
theorem Stmt.Legible.ofEntries? (hnumber : ReadsBack number) : ∀ {s : Stmt} {es : List Entry}
    {rest : List Stmt}, s.Legible → Stmt.ofEntries? number es = some (.nothing, rest) →
    Stmt.ofEntries? number (s.entries ++ es) = some (.nothing, s.move Token.bare :: rest)
  | .expression value, _, _, h, hes => by
    have hvalue : value.Legible := h
    refine Stmt.ofEntries?_leaf ?_ hes
    rw [Stmt.ofLine?, hvalue.expr?_form hnumber]
    rfl
  | .print _ _, _, _, ⟨hkeyword, hvalue⟩, hes => by
    refine Stmt.ofEntries?_leaf ?_ hes
    rw [Stmt.ofLine?, hvalue.expr?_form hnumber, Stmt.move, hkeyword.bare]
    rfl
  | .assign _ _, _, _, ⟨hname, hvalue⟩, hes => by
    refine Stmt.ofEntries?_leaf ?_ hes
    rw [Stmt.ofLine?, hvalue.expr?_form hnumber, hname.bare]
    rfl
  | .return _ value, _, _, ⟨hkeyword, hvalue⟩, hes => by
    refine Stmt.ofEntries?_leaf ?_ hes
    rw [Stmt.ofLine?, hvalue.exprs?_form hnumber, Stmt.move, hkeyword.bare]
    cases value <;> rfl
  | .block body, _, _, h, hes => by
    have hbody : Stmt.EachLegible body := h
    exact Stmt.ofEntries?_node (hbody.ofEntries? hnumber) hes
  | .branch _ _ _, _, _, ⟨hcondition, hbody, hotherwise⟩, hes => by
    refine (Stmt.ofEntries?_clause (Stmt.EachLegible.ofEntries? hnumber hbody)
      (hotherwise.ofEntries? hnumber hes)).trans ?_
    rw [Stmt.ofHead?, hcondition.expr?_form hnumber]
    rfl
  | .loop _ _, _, _, ⟨hcondition, hbody⟩, hes => by
    refine (Stmt.ofEntries?_clause (Stmt.EachLegible.ofEntries? hnumber hbody) hes).trans ?_
    refine Stmt.ofHead?_compound ?_
    rw [Stmt.compound?, hcondition.expr?_form hnumber]
    rfl
  | .forRange _ start stop step _, _, _, ⟨hname, hstart, hstop, hstep, hshape, hbody⟩, hes => by
    refine (Stmt.ofEntries?_clause (Stmt.EachLegible.ofEntries? hnumber hbody) hes).trans ?_
    refine Stmt.ofHead?_compound ?_
    rw [Stmt.compound?, Stmt.ofBounds?_formOptional hnumber hstart hstop hstep hshape, hname.bare]
    rfl
  | .forEach _ _ _, _, _, ⟨hname, hiterable, hbody⟩, hes => by
    refine (Stmt.ofEntries?_clause (Stmt.EachLegible.ofEntries? hnumber hbody) hes).trans ?_
    refine Stmt.ofHead?_compound ?_
    rw [Stmt.compound?_forEach (hiterable.expr?_form hnumber), hname.bare]
    rfl
  | .define _ _ _, _, _, ⟨hname, hparameters, hbody⟩, hes => by
    refine (Stmt.ofEntries?_node (Stmt.EachLegible.ofEntries? hnumber hbody) hes).trans ?_
    refine Stmt.ofHead?_compound ?_
    rw [Stmt.compound?, hname.bare, Form.map_name hparameters]
    rfl

/-- So are the entries of a legible alternative. -/
theorem Alternative.Legible.ofEntries? (hnumber : ReadsBack number) :
    ∀ {otherwise : Alternative} {es : List Entry} {rest : List Stmt}, otherwise.Legible →
    Stmt.ofEntries? number es = some (.nothing, rest) →
    Stmt.ofEntries? number (otherwise.entries ++ es) =
      some (otherwise.move Token.bare, rest)
  | .nothing, _, _, _, hes => hes
  | .another _ _ _, _, _, ⟨hcondition, hbody, hotherwise⟩, hes => by
    refine (Stmt.ofEntries?_clause (Stmt.EachLegible.ofEntries? hnumber hbody)
      (hotherwise.ofEntries? hnumber hes)).trans ?_
    rw [Stmt.ofHead?, hcondition.expr?_form hnumber]
    rfl
  | .last body, _, _, h, hes => by
    have hbody : Stmt.EachLegible body := h
    exact Stmt.ofEntries?_clause (Stmt.EachLegible.ofEntries? hnumber hbody) hes

/-- The entries of a program are read back as the program. -/
theorem Stmt.EachLegible.ofEntries? (hnumber : ReadsBack number) : ∀ {body : List Stmt},
    Stmt.EachLegible body →
    Stmt.ofEntries? number (Stmt.entriesEach body) =
      some (.nothing, Stmt.moveEach Token.bare body)
  | [], _ => rfl
  | _ :: _, ⟨h, h'⟩ => h.ofEntries? hnumber (Stmt.EachLegible.ofEntries? hnumber h')

end

end Words

end Offside
