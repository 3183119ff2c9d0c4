import Offside.Proofs.Moves
import Offside.Proofs.NumberTexts
import Offside.Proofs.Outlines
import Offside.Proofs.Spellings
import Offside.Proofs.SupportedTrees
import Offside.Tree.Dump

/-!
# Trees as outlines

The dump of a tree is the text of an outline, in which the further clauses of a branch stand beside
its first one. The outline can be turned back into the tree, positions aside: what a list is made
from is told by its first word and the number of its items, and a word that is not reserved is a
name or a number by its first letter.
-/

namespace Offside

/-! ## The outline of a tree -/

/-- The form of a constant. -/
def Literal.form : Literal → Form
  | number value => .word (Number.text .listing value)
  | string contents => .quoted contents
  | boolean value => .word (if value then "True" else "False")
  | none => .word "None"

mutual

/-- The form of an expression. -/
def Expr.form : Expr → Form
  | .literal value => value.form
  | .variable name => .word name.lexeme
  | .grouping inner => .list [.word "group", inner.form]
  | .unary operator operand => .list [.word operator.lexeme, operand.form]
  | .binary left operator right | .logical left operator right =>
    .list [.word operator.lexeme, left.form, right.form]
  | .assign name value => .list [.word "=", .word name.lexeme, value.form]
  | .list items => .list (.word "list" :: Expr.formEach items)
  | .element name position => .list [.word "index", .word name.lexeme, position.form]
  | .slice name start stop => .list [.word "index", .word name.lexeme, start.form, stop.form]
  | .stride name start stop step =>
    .list [.word "index", .word name.lexeme, start.form, stop.form, step.form]
  | .call name arguments => .list (.word "call" :: .word name.lexeme :: Expr.formEach arguments)

/-- The forms of several expressions. -/
def Expr.formEach : List Expr → List Form
  | [] => []
  | e :: es => e.form :: Expr.formEach es

end

/-- The form of an expression that may be absent. -/
def Expr.formOptional : Option Expr → List Form
  | none => []
  | some e => [e.form]

/-- An entry around a block. -/
def Entry.clause (head : List Form) (inner : List Entry) : Entry :=
  .node head [.node [.word "block"] inner]

mutual

/-- The entries of a statement. -/
def Stmt.entries : Stmt → List Entry
  | .expression value => [.leaf [.word "expr", value.form]]
  | .print _ value => [.leaf [.word "print", value.form]]
  | .assign name value => [.leaf [.word "assign", .word name.lexeme, value.form]]
  | .block body => [.node [.word "block"] (Stmt.entriesEach body)]
  | .branch condition body otherwise =>
    .clause [.word "if", condition.form] (Stmt.entriesEach body) :: otherwise.entries
  | .loop condition body => [.clause [.word "while", condition.form] (Stmt.entriesEach body)]
  | .forRange name start stop step body =>
    [.clause [.word "for", .word name.lexeme,
        .list (.word "range" :: (Expr.formOptional start ++ stop.form :: Expr.formOptional step))]
      (Stmt.entriesEach body)]
  | .forEach name iterable body =>
    [.clause [.word "for", .word name.lexeme, iterable.form] (Stmt.entriesEach body)]
  | .define name parameters body =>
    [.node [.word "def", .word name.lexeme, .list (parameters.map fun t => .word t.lexeme)]
      (Stmt.entriesEach body)]
  | .return _ value => [.leaf (.word "return" :: Expr.formOptional value)]

/-- The entries of the further clauses of a branch. -/
def Alternative.entries : Alternative → List Entry
  | .nothing => []
  | .another condition body otherwise =>
    .clause [.word "elif", condition.form] (Stmt.entriesEach body) :: otherwise.entries
  | .last body => [.clause [.word "else"] (Stmt.entriesEach body)]

/-- The entries of several statements. -/
def Stmt.entriesEach : List Stmt → List Entry
  | [] => []
  | s :: rest => s.entries ++ Stmt.entriesEach rest

end

/-! ## Dumps are the texts of outlines -/

/-- A literal is dumped as the text of its form. -/
theorem Literal.toList_dump (value : Literal) : value.dump.toList = value.form.text := by
  cases value with
  | number value => rfl
  | string contents => simp [dump, form, Form.text]
  | boolean value => cases value <;> rfl
  | none => rfl

mutual

-- The equation lemmas of `Expr.dump` take long to make, so its cases are taken by `unfold`.
/-- An expression is dumped as the text of its form. -/
theorem Expr.toList_dump : ∀ e : Expr, e.dump.toList = e.form.text
  | .literal value => by
    unfold Expr.dump
    simp [Expr.form, value.toList_dump]
  | .variable _ => by
    unfold Expr.dump
    simp [Expr.form, Form.text]
  | .grouping inner => by
    unfold Expr.dump
    simp [Expr.form, Form.text, Form.textEach, Form.textMore, inner.toList_dump]
  | .unary _ operand => by
    unfold Expr.dump
    simp [Expr.form, Form.text, Form.textEach, Form.textMore, operand.toList_dump]
  | .binary left _ right | .logical left _ right => by
    unfold Expr.dump
    simp [Expr.form, Form.text, Form.textEach, Form.textMore, left.toList_dump,
      right.toList_dump]
  | .assign _ value => by
    unfold Expr.dump
    simp [Expr.form, Form.text, Form.textEach, Form.textMore, value.toList_dump]
  | .list items => by
    unfold Expr.dump
    simp [Expr.form, Form.text, Form.textEach, Expr.toList_dumpEach items]
  | .element _ position => by
    unfold Expr.dump
    simp [Expr.form, Form.text, Form.textEach, Form.textMore, position.toList_dump]
  | .slice _ start stop => by
    unfold Expr.dump
    simp [Expr.form, Form.text, Form.textEach, Form.textMore, start.toList_dump,
      stop.toList_dump]
  | .stride _ start stop step => by
    unfold Expr.dump
    simp [Expr.form, Form.text, Form.textEach, Form.textMore, start.toList_dump,
      stop.toList_dump, step.toList_dump]
  | .call _ arguments => by
    unfold Expr.dump
    simp [Expr.form, Form.text, Form.textEach, Form.textMore,
      Expr.toList_dumpEach arguments]

/-- So are several, with a blank in front of each. -/
theorem Expr.toList_dumpEach : ∀ es : List Expr,
    (Expr.dumpEach es).toList = Form.textMore (Expr.formEach es)
  | [] => rfl
  | e :: es => by
    simp [Expr.dumpEach, Expr.formEach, Form.textMore, e.toList_dump, Expr.toList_dumpEach es]

end

/-- So is one that may be left out. -/
theorem Expr.toList_dumpOptional (e : Option Expr) :
    (Expr.dumpOptional e).toList = Form.textMore (Expr.formOptional e) := by
  cases e <;> simp [Expr.dumpOptional, Expr.formOptional, Form.textMore, Expr.toList_dump]

/-- The texts of two runs of forms stand one behind the other. -/
theorem Form.textMore_append (fs gs : List Form) :
    Form.textMore (fs ++ gs) = Form.textMore fs ++ Form.textMore gs := by
  induction fs with
  | nil => rfl
  | cons f fs ih => simp [Form.textMore, ih]

/-- Names are written with blanks between them. -/
theorem Form.textEach_names (names : List Token) :
    Form.textEach (names.map fun t => .word t.lexeme) =
      (" ".intercalate (names.map Token.lexeme)).toList := by
  have hmore (first : Token) (names : List Token) :
      first.lexeme.toList ++ Form.textMore (names.map fun t => .word t.lexeme) =
        (" ".intercalate ((first :: names).map Token.lexeme)).toList := by
    induction names generalizing first with
    | nil => simp [Form.textMore]
    | cons name names ih =>
      have htail : (name :: names).map Token.lexeme ≠ [] := by simp
      change _ = (" ".intercalate (first.lexeme :: (name :: names).map Token.lexeme)).toList
      rw [String.intercalate_cons_of_ne_nil htail, String.toList_append, ← ih]
      simp [Form.textMore, Form.text]
  cases names with
  | nil => rfl
  | cons first names => exact hmore first names

/-- The texts of two runs of entries stand one behind the other. -/
theorem Entry.textEach_append (depth : Nat) (es es' : List Entry) :
    Entry.textEach depth (es ++ es') = Entry.textEach depth es ++ Entry.textEach depth es' := by
  induction es with
  | nil => rfl
  | cons e es ih => simp [Entry.textEach, ih]

/-- A dump is padded as its outline is. -/
theorem Stmt.toList_pad (depth : Nat) : (Stmt.pad depth).toList = Entry.pad depth :=
  String.toList_ofList

/-- A dump with a head and a body is the text of a node. -/
theorem Stmt.toList_enclose {depth : Nat} {head body : String} {items : List Form}
    {inner : List Entry} (hhead : head.toList = Form.textEach items)
    (hbody : body.toList = Entry.textEach (depth + 1) inner) :
    (Stmt.enclose depth head body).toList = (Entry.node items inner).text depth := by
  simp [Stmt.enclose, Stmt.toList_pad, hhead, hbody, Entry.text]

/-- A line of the dump, with the block behind it. -/
theorem Stmt.toList_enclose_block {depth : Nat} {head body : String} {items : List Form}
    {inner : List Entry} (hhead : head.toList = Form.textEach items)
    (hbody : body.toList = Entry.textEach (depth + 2) inner) :
    (Stmt.enclose depth head (Stmt.enclose (depth + 1) "block" body)).toList =
      (Entry.clause items inner).text depth := by
  have hblock : ("block" : String).toList = Form.textEach [.word "block"] := rfl
  refine Stmt.toList_enclose hhead ?_
  rw [Stmt.toList_enclose hblock hbody, Entry.textEach, Entry.textEach, List.append_nil]

mutual

/-- A statement is dumped as the text of its entries. -/
theorem Stmt.toList_dump (depth : Nat) : ∀ s : Stmt,
    (s.dump depth).toList = Entry.textEach depth s.entries
  | .expression value | .print _ value => by
    simp [Stmt.dump, Stmt.entries, Stmt.toList_pad, value.toList_dump, Entry.textEach, Entry.text,
      Form.textEach, Form.textMore, Form.text]
  | .assign _ value => by
    simp [Stmt.dump, Stmt.entries, Stmt.toList_pad, value.toList_dump, Entry.textEach, Entry.text,
      Form.textEach, Form.textMore, Form.text]
  | .return _ value => by
    simp [Stmt.dump, Stmt.entries, Stmt.toList_pad, Expr.toList_dumpOptional, Entry.textEach,
      Entry.text, Form.textEach, Form.text]
  | .block body => by
    have hblock : ("block" : String).toList = Form.textEach [.word "block"] := rfl
    simp [Stmt.dump, Stmt.entries, Entry.textEach,
      Stmt.toList_enclose hblock (Stmt.toList_dumpEach (depth + 1) body)]
  | .branch condition body otherwise => by
    have hhead : ("if " ++ condition.dump).toList = Form.textEach [.word "if", condition.form] := by
      simp [condition.toList_dump, Form.textEach, Form.textMore, Form.text]
    simp [Stmt.dump, Stmt.entries, Entry.textEach, Alternative.toList_dump depth otherwise,
      Stmt.toList_enclose_block hhead (Stmt.toList_dumpEach (depth + 2) body)]
  | .loop condition body => by
    have hhead : ("while " ++ condition.dump).toList =
        Form.textEach [.word "while", condition.form] := by
      simp [condition.toList_dump, Form.textEach, Form.textMore, Form.text]
    simp [Stmt.dump, Stmt.entries, Entry.textEach,
      Stmt.toList_enclose_block hhead (Stmt.toList_dumpEach (depth + 2) body)]
  | .forRange name start stop step body => by
    have hhead : ("for " ++ name.lexeme ++ " (range" ++ Expr.dumpOptional start ++ " " ++
        stop.dump ++ Expr.dumpOptional step ++ ")").toList =
        Form.textEach [.word "for", .word name.lexeme,
          .list (.word "range" ::
            (Expr.formOptional start ++ stop.form :: Expr.formOptional step))] := by
      simp [stop.toList_dump, Expr.toList_dumpOptional, Form.textEach, Form.textMore, Form.text,
        Form.textMore_append]
    simp only [Stmt.dump, Stmt.entries, Entry.textEach, List.append_nil,
      Stmt.toList_enclose_block hhead (Stmt.toList_dumpEach (depth + 2) body)]
  | .forEach name iterable body => by
    have hhead : ("for " ++ name.lexeme ++ " " ++ iterable.dump).toList =
        Form.textEach [.word "for", .word name.lexeme, iterable.form] := by
      simp [iterable.toList_dump, Form.textEach, Form.textMore, Form.text]
    simp only [Stmt.dump, Stmt.entries, Entry.textEach, List.append_nil,
      Stmt.toList_enclose_block hhead (Stmt.toList_dumpEach (depth + 2) body)]
  | .define name parameters body => by
    have hhead : ("def " ++ name.lexeme ++ " (" ++
        " ".intercalate (parameters.map Token.lexeme) ++ ")").toList =
        Form.textEach [.word "def", .word name.lexeme,
          .list (parameters.map fun t => .word t.lexeme)] := by
      simp only [String.toList_append, Form.textEach, Form.textMore, Form.text,
        Form.textEach_names]
      simp
    simp only [Stmt.dump, Stmt.entries, Entry.textEach, List.append_nil,
      Stmt.toList_enclose hhead (Stmt.toList_dumpEach (depth + 1) body)]

/-- So is an alternative. -/
theorem Alternative.toList_dump (depth : Nat) : ∀ otherwise : Alternative,
    (otherwise.dump depth).toList = Entry.textEach depth otherwise.entries
  | .nothing => rfl
  | .another condition body otherwise => by
    have hhead : ("elif " ++ condition.dump).toList =
        Form.textEach [.word "elif", condition.form] := by
      simp [condition.toList_dump, Form.textEach, Form.textMore, Form.text]
    simp [Alternative.dump, Alternative.entries, Entry.textEach,
      Alternative.toList_dump depth otherwise,
      Stmt.toList_enclose_block hhead (Stmt.toList_dumpEach (depth + 2) body)]
  | .last body => by
    have hhead : ("else" : String).toList = Form.textEach [.word "else"] := rfl
    simp [Alternative.dump, Alternative.entries, Entry.textEach,
      Stmt.toList_enclose_block hhead (Stmt.toList_dumpEach (depth + 2) body)]

/-- So is a body. -/
theorem Stmt.toList_dumpEach (depth : Nat) : ∀ body : List Stmt,
    (Stmt.dumpEach depth body).toList = Entry.textEach depth (Stmt.entriesEach body)
  | [] => rfl
  | s :: rest => by
    simp [Stmt.dumpEach, Stmt.entriesEach, Entry.textEach_append, Stmt.toList_dump depth s,
      Stmt.toList_dumpEach depth rest]

end

/-! ## Legible trees -/

/-- A token that is a name: letters, digits and underscores, no digit in front, and not reserved. -/
structure Token.IsName (t : Token) : Prop where
  kind : t.kind = .identifier
  letters : ∃ c cs, t.lexeme.toList = c :: cs ∧ Piece.isWordStart c ∧ ∀ d ∈ cs, Piece.isWordPart d
  free : Keyword.ofText? t.lexeme = none

/-- A token that is one of the given operators or reserved words, and spelled like it. -/
structure Token.IsAmong (kinds : List Kind) (t : Token) : Prop where
  mem : t.kind ∈ kinds
  spelling : t.kind.spelling? = some t.lexeme

/-- A constant that can be spelled out. -/
def Literal.Legible : Literal → Prop
  | number value => Number.isFinite value
  | string contents => '"' ∉ contents.toList
  | boolean _ | none => True

mutual

/-- An expression whose names, operators and constants can be told from its dump. -/
def Expr.Legible : Expr → Prop
  | .literal value => value.Legible
  | .variable name => name.IsName
  | .grouping inner => inner.Legible
  | .unary operator operand => operator.IsAmong Expr.prefixOperators ∧ operand.Legible
  | .binary left operator right =>
    operator.IsAmong binaryOperators ∧ left.Legible ∧ right.Legible
  | .logical left operator right =>
    operator.IsAmong logicalOperators ∧ left.Legible ∧ right.Legible
  | .assign name value => name.IsName ∧ value.Legible
  | .list items => Expr.EachLegible items
  | .element name position => name.IsName ∧ position.Legible
  | .slice name start stop => name.IsName ∧ start.Legible ∧ stop.Legible
  | .stride name start stop step =>
    name.IsName ∧ start.Legible ∧ stop.Legible ∧ step.Legible
  | .call name arguments => name.IsName ∧ Expr.EachLegible arguments

/-- Legible expressions. -/
def Expr.EachLegible : List Expr → Prop
  | [] => True
  | e :: es => e.Legible ∧ Expr.EachLegible es

end

/-- An expression that may be absent, and is legible if it is there. -/
def Expr.OptionalLegible (e : Option Expr) : Prop := ∀ e' ∈ e, e'.Legible

mutual

/-- A statement whose tokens and constants can be told from its dump. -/
def Stmt.Legible : Stmt → Prop
  | .expression value => value.Legible
  | .print keyword value => keyword.IsAmong [.keyword .print_] ∧ value.Legible
  | .assign name value => name.IsName ∧ value.Legible
  | .block body => Stmt.EachLegible body
  | .branch condition body otherwise =>
    condition.Legible ∧ Stmt.EachLegible body ∧ otherwise.Legible
  | .loop condition body => condition.Legible ∧ Stmt.EachLegible body
  | .forRange name start stop step body =>
    name.IsName ∧ Expr.OptionalLegible start ∧ stop.Legible ∧ Expr.OptionalLegible step ∧
      (start = none → step = none) ∧ Stmt.EachLegible body
  | .forEach name iterable body => name.IsName ∧ iterable.Legible ∧ Stmt.EachLegible body
  | .define name parameters body =>
    name.IsName ∧ (∀ t ∈ parameters, t.IsName) ∧ Stmt.EachLegible body
  | .return keyword value => keyword.IsAmong [.keyword .return_] ∧ Expr.OptionalLegible value

/-- Legible further clauses. -/
def Alternative.Legible : Alternative → Prop
  | .nothing => True
  | .another condition body otherwise =>
    condition.Legible ∧ Stmt.EachLegible body ∧ otherwise.Legible
  | .last body => Stmt.EachLegible body

/-- Legible statements. -/
def Stmt.EachLegible : List Stmt → Prop
  | [] => True
  | s :: rest => s.Legible ∧ Stmt.EachLegible rest

end

/-! ## Outlines of legible trees are well-formed -/

/-- A name is a well-formed word. -/
theorem Token.IsName.wellFormed {t : Token} (h : t.IsName) : (Form.word t.lexeme).WellFormed := by
  obtain ⟨c, cs, hletters, hc, hcs⟩ := h.letters
  rw [Form.WellFormed, hletters]
  refine ⟨List.cons_ne_nil c cs, fun d hd => ?_⟩
  rcases List.mem_cons.mp hd with rfl | hd
  · exact Form.isPlain_of (by decide) hc
  · exact Form.isPlain_of (by decide) (hcs d hd)

/-- The operators are words. -/
theorem Token.IsAmong.wellFormed {kinds : List Kind} {t : Token} (h : t.IsAmong kinds)
    (hkinds : kinds = Expr.prefixOperators ∨ kinds = binaryOperators ∨ kinds = logicalOperators) :
    (Form.word t.lexeme).WellFormed := by
  have hspelling :
      ∀ kind ∈ kinds, ∀ spelling ∈ kind.spelling?, (Form.word spelling).WellFormed := by
    rcases hkinds with rfl | rfl | rfl <;>
      simp [Expr.prefixOperators, binaryOperators, logicalOperators, Kind.spelling?, Symbol.text,
        Keyword.text, Form.WellFormed, Form.isPlain, Form.separators]
  exact hspelling t.kind h.mem t.lexeme h.spelling

/-- A legible literal has a well-formed form. -/
theorem Literal.Legible.wellFormed {value : Literal} (h : value.Legible) :
    value.form.WellFormed := by
  cases value with
  | number value =>
    obtain ⟨c, cs, hletters, -, hcs⟩ := Number.exists_text_eq_cons h .listing
    rw [form, Form.WellFormed, hletters]
    refine ⟨List.cons_ne_nil c cs, fun d hd => ?_⟩
    have hd : (d.isDigit || d == '.' || d == '-') = true := by simpa [or_assoc] using hcs d hd
    exact Form.isPlain_of (p := fun d => d.isDigit || d == '.' || d == '-') (by decide) hd
  | string contents => exact h
  | boolean value =>
    cases value <;> simp [form, Form.WellFormed, Form.isPlain, Form.separators]
  | none => simp [form, Form.WellFormed, Form.isPlain, Form.separators]

/-- A word of letters in front of the items of a list. -/
def Form.heads : List String :=
  ["group", "=", "list", "index", "call", "expr", "print", "assign", "block", "if", "elif", "else",
    "while", "for", "range", "def", "return"]

/-- Every head is a well-formed word. -/
theorem Form.wellFormed_of_mem_heads {w : String} (h : w ∈ heads) : (Form.word w).WellFormed := by
  have hheads : ∀ w ∈ heads, w.toList ≠ [] ∧ ∀ c ∈ w.toList, Form.isPlain c := by
    simp [heads, isPlain, separators]
  exact hheads w h

/-- A list of well-formed items behind a word. -/
theorem Form.wellFormed_headed {w : String} {items : List Form} (hw : w ∈ heads)
    (hitems : Form.EachWellFormed items) : Form.EachWellFormed (.word w :: items) :=
  ⟨Form.wellFormed_of_mem_heads hw, hitems⟩

mutual

/-- A legible expression has a well-formed form. -/
theorem Expr.Legible.wellFormed : ∀ {e : Expr}, e.Legible → e.form.WellFormed
  | .literal _, h => Literal.Legible.wellFormed h
  | .variable _, h => Token.IsName.wellFormed h
  | .grouping inner, h =>
    have hinner : inner.Legible := h
    Form.wellFormed_headed (by simp [Form.heads]) ⟨hinner.wellFormed, trivial⟩
  | .unary _ _, ⟨hoperator, hoperand⟩ =>
    ⟨hoperator.wellFormed (.inl rfl), hoperand.wellFormed, trivial⟩
  | .binary _ _ _, ⟨hoperator, hleft, hright⟩ =>
    ⟨hoperator.wellFormed (.inr (.inl rfl)), hleft.wellFormed, hright.wellFormed, trivial⟩
  | .logical _ _ _, ⟨hoperator, hleft, hright⟩ =>
    ⟨hoperator.wellFormed (.inr (.inr rfl)), hleft.wellFormed, hright.wellFormed, trivial⟩
  | .assign _ _, ⟨hname, hvalue⟩ =>
    Form.wellFormed_headed (by simp [Form.heads]) ⟨hname.wellFormed, hvalue.wellFormed, trivial⟩
  | .list _, h => Form.wellFormed_headed (by simp [Form.heads]) (Expr.EachLegible.wellFormed h)
  | .element _ _, ⟨hname, hposition⟩ =>
    Form.wellFormed_headed (by simp [Form.heads])
      ⟨hname.wellFormed, hposition.wellFormed, trivial⟩
  | .slice _ _ _, ⟨hname, hstart, hstop⟩ =>
    Form.wellFormed_headed (by simp [Form.heads])
      ⟨hname.wellFormed, hstart.wellFormed, hstop.wellFormed, trivial⟩
  | .stride _ _ _ _, ⟨hname, hstart, hstop, hstep⟩ =>
    Form.wellFormed_headed (by simp [Form.heads])
      ⟨hname.wellFormed, hstart.wellFormed, hstop.wellFormed, hstep.wellFormed, trivial⟩
  | .call _ _, ⟨hname, harguments⟩ =>
    Form.wellFormed_headed (by simp [Form.heads])
      ⟨hname.wellFormed, Expr.EachLegible.wellFormed harguments⟩

/-- So has each of several. -/
theorem Expr.EachLegible.wellFormed : ∀ {es : List Expr}, Expr.EachLegible es →
    Form.EachWellFormed (Expr.formEach es)
  | [], _ => trivial
  | _ :: _, ⟨h, h'⟩ => ⟨h.wellFormed, Expr.EachLegible.wellFormed h'⟩

end

/-- Two runs of forms are well formed when each is. -/
theorem Form.eachWellFormed_append {fs gs : List Form} :
    Form.EachWellFormed (fs ++ gs) ↔ Form.EachWellFormed fs ∧ Form.EachWellFormed gs := by
  induction fs with
  | nil => simp [Form.EachWellFormed]
  | cons f fs ih => simp [Form.EachWellFormed, ih, and_assoc]

/-- Two runs of entries are well formed when each is. -/
theorem Entry.eachWellFormed_append {es es' : List Entry} :
    Entry.EachWellFormed (es ++ es') ↔ Entry.EachWellFormed es ∧ Entry.EachWellFormed es' := by
  induction es with
  | nil => simp [Entry.EachWellFormed]
  | cons e es ih => simp [Entry.EachWellFormed, ih, and_assoc]

/-- A legible expression that may be left out has a well-formed form. -/
theorem Expr.OptionalLegible.wellFormed {e : Option Expr} (h : Expr.OptionalLegible e) :
    Form.EachWellFormed (Expr.formOptional e) := by
  cases e with
  | none => trivial
  | some e => exact ⟨(h e rfl).wellFormed, trivial⟩

/-- Names have well-formed forms. -/
theorem Form.eachWellFormed_names {names : List Token} (h : ∀ t ∈ names, t.IsName) :
    Form.EachWellFormed (names.map fun t => .word t.lexeme) := by
  induction names with
  | nil => trivial
  | cons name names ih =>
    obtain ⟨hname, hnames⟩ := List.forall_mem_cons.mp h
    exact ⟨hname.wellFormed, ih hnames⟩

/-- A clause is well formed when its head and its entries are. -/
theorem Entry.wellFormed_clause {w : String} {items : List Form} {inner : List Entry}
    (hw : w ∈ Form.heads) (hitems : Form.EachWellFormed items)
    (hinner : Entry.EachWellFormed inner) : (Entry.clause (.word w :: items) inner).WellFormed :=
  ⟨Form.wellFormed_headed hw hitems,
    ⟨Form.wellFormed_headed (by simp [Form.heads]) trivial, hinner⟩, trivial⟩

mutual

/-- A legible statement has well-formed entries. -/
theorem Stmt.Legible.wellFormed : ∀ {s : Stmt}, s.Legible → Entry.EachWellFormed s.entries
  | .expression value, h =>
    have hvalue : value.Legible := h
    ⟨Form.wellFormed_headed (by simp [Form.heads]) ⟨hvalue.wellFormed, trivial⟩, trivial⟩
  | .print _ _, ⟨_, hvalue⟩ =>
    ⟨Form.wellFormed_headed (by simp [Form.heads]) ⟨hvalue.wellFormed, trivial⟩, trivial⟩
  | .assign _ _, ⟨hname, hvalue⟩ =>
    ⟨Form.wellFormed_headed (by simp [Form.heads])
      ⟨hname.wellFormed, hvalue.wellFormed, trivial⟩, trivial⟩
  | .block _, h =>
    ⟨⟨Form.wellFormed_headed (by simp [Form.heads]) trivial, Stmt.EachLegible.wellFormed h⟩,
      trivial⟩
  | .branch _ _ _, ⟨hcondition, hbody, hotherwise⟩ =>
    ⟨Entry.wellFormed_clause (by simp [Form.heads]) ⟨hcondition.wellFormed, trivial⟩
      (Stmt.EachLegible.wellFormed hbody), hotherwise.wellFormed⟩
  | .loop _ _, ⟨hcondition, hbody⟩ =>
    ⟨Entry.wellFormed_clause (by simp [Form.heads]) ⟨hcondition.wellFormed, trivial⟩
      (Stmt.EachLegible.wellFormed hbody), trivial⟩
  | .forRange _ start stop step _, ⟨hname, hstart, hstop, hstep, _, hbody⟩ =>
    have hrange : Form.EachWellFormed
        (Expr.formOptional start ++ stop.form :: Expr.formOptional step) :=
      Form.eachWellFormed_append.mpr ⟨hstart.wellFormed, hstop.wellFormed, hstep.wellFormed⟩
    ⟨Entry.wellFormed_clause (by simp [Form.heads])
      ⟨hname.wellFormed, Form.wellFormed_headed (by simp [Form.heads]) hrange, trivial⟩
      (Stmt.EachLegible.wellFormed hbody), trivial⟩
  | .forEach _ _ _, ⟨hname, hiterable, hbody⟩ =>
    ⟨Entry.wellFormed_clause (by simp [Form.heads])
      ⟨hname.wellFormed, hiterable.wellFormed, trivial⟩ (Stmt.EachLegible.wellFormed hbody),
      trivial⟩
  | .define _ _ _, ⟨hname, hparameters, hbody⟩ =>
    ⟨⟨Form.wellFormed_headed (by simp [Form.heads])
      ⟨hname.wellFormed, Form.eachWellFormed_names hparameters, trivial⟩,
      Stmt.EachLegible.wellFormed hbody⟩, trivial⟩
  | .return _ _, ⟨_, hvalue⟩ =>
    ⟨Form.wellFormed_headed (by simp [Form.heads]) hvalue.wellFormed, trivial⟩

/-- So has a legible alternative. -/
theorem Alternative.Legible.wellFormed : ∀ {otherwise : Alternative}, otherwise.Legible →
    Entry.EachWellFormed otherwise.entries
  | .nothing, _ => trivial
  | .another _ _ _, ⟨hcondition, hbody, hotherwise⟩ =>
    ⟨Entry.wellFormed_clause (by simp [Form.heads]) ⟨hcondition.wellFormed, trivial⟩
      (Stmt.EachLegible.wellFormed hbody), hotherwise.wellFormed⟩
  | .last _, h =>
    ⟨Entry.wellFormed_clause (by simp [Form.heads]) trivial (Stmt.EachLegible.wellFormed h),
      trivial⟩

/-- So has a legible body. -/
theorem Stmt.EachLegible.wellFormed : ∀ {body : List Stmt}, Stmt.EachLegible body →
    Entry.EachWellFormed (Stmt.entriesEach body)
  | [], _ => trivial
  | _ :: _, ⟨h, h'⟩ =>
    Entry.eachWellFormed_append.mpr ⟨h.wellFormed, Stmt.EachLegible.wellFormed h'⟩

end

end Offside
