import Offside.Proofs.Balance
import Offside.Proofs.ExprCompleteness
import Offside.Proofs.StmtReading

/-!
# Parsing reads back what is written

Every canonical program is parsed, without errors and as itself, from any tokens that fill the
places it is written in. A statement is read up to a token that does not belong to it: no end of a
line, and no further clause of a branch.
-/

namespace Offside

/-- Whether a token of this kind behind a statement would be taken as part of it. -/
def Kind.continuesStmt (kind : Kind) : Bool :=
  kind == .newline || kind == .keyword .elif_ || kind == .keyword .else_

/-- Reading an operation that starts with a name stops in front of an equals sign. -/
theorem Expr.Derives.stops_at_equal {phrase : Phrase} {ts rest : List Token}
    (h : Derives phrase ts rest) {name sign : Token} {us : List Token}
    (hname : name.kind = .identifier) (hsign : sign.kind = .symbol .equal) :
    match phrase with
    | .operation _ _ | .signed _ | .power _ | .primary _ =>
      ts = name :: sign :: us → rest = sign :: us
    | .chain _ _ _ => ts = sign :: us → rest = sign :: us
    | _ => True := by
  -- A rule that would take more than the name asks for a token that the equals sign is not.
  induction h with
  | level _ _ _ ih ih' => exact fun hts => ih' (ih hts)
  | tightest _ _ ih => exact ih
  | chainEnd _ _ => exact fun hts => hts
  | @chainStep i level _ _ _ operator _ _ _ hlevel hkind _ _ _ _ =>
    rintro ⟨⟩
    have hprecedence := (mem_operators_iff hlevel _).mp hkind
    simp [hsign, Kind.precedence?] at hprecedence
  | sign hkind _ _ =>
    rintro ⟨⟩
    simp [hname, prefixOperators] at hkind
  | unsigned _ ih => exact ih
  | base _ _ ih => exact ih
  | raise _ hkind _ ih _ =>
    intro hts
    cases ih hts
    simp [hsign] at hkind
  | literal hvalue =>
    rintro ⟨⟩
    simp [hname, Kind.literal?] at hvalue
  | grouping hkind _ _ _ =>
    rintro ⟨⟩
    simp [hname] at hkind
  | list hkind _ _ _ =>
    rintro ⟨⟩
    simp [hname] at hkind
  | «variable» _ _ _ =>
    rintro ⟨⟩
    rfl
  | element _ hkind _ _ _ =>
    rintro ⟨⟩
    simp [hsign] at hkind
  | slice _ hkind _ _ _ _ _ _ =>
    rintro ⟨⟩
    simp [hsign] at hkind
  | stride _ hkind _ _ _ _ _ _ _ _ _ =>
    rintro ⟨⟩
    simp [hsign] at hkind
  | call _ hkind _ _ _ =>
    rintro ⟨⟩
    simp [hsign] at hkind
  | _ => trivial

namespace Stmt

/-- An expression that is no assignment does not look like one. -/
theorem startsAssignment_eq_false {e : Expr} {ts rest : List Token}
    (h : Expr.Derives (.whole e) ts rest) (hassign : e.isAssignment = false) :
    startsAssignment ts = false := by
  cases h with
  | assign _ _ _ => cases hassign
  | operation h hrest =>
    unfold startsAssignment
    split
    next name sign us =>
      rw [Bool.and_eq_false_iff]
      by_cases hname : name.kind = .identifier
      · right
        rw [beq_eq_false_iff_ne]
        intro hsign
        rw [h.stops_at_equal hname hsign rfl] at hrest
        simp [hsign] at hrest
      · left
        simpa using hname
    next => rfl

/-- From the tokens `ts` a statement is read, up to a token that does not continue it. -/
def Readable (s : Stmt) (ts : List Token) : Prop :=
  ∀ rest, leads Kind.continuesStmt rest = false → Derives (.one s) (ts ++ rest) rest

/-- From the tokens `ts` a sequence of statements is read, up to the end of its block. -/
def ReadableSequence (body : List Stmt) (ts : List Token) : Prop :=
  ∀ rest, leads (· != .dedent) rest = false →
    Derives (.sequence body) (ts ++ rest) rest ∧ leads Kind.continuesStmt (ts ++ rest) = false

/-- From the tokens `ts` a body is read, and its first token ends the expression in front of it. -/
def ReadableBody (body : List Stmt) (ts : List Token) : Prop :=
  ∀ rest, Derives (.body body) (ts ++ rest) rest ∧ leads (Kind.extends 0) (ts ++ rest) = false

/-- From the tokens `ts` the further clauses of a branch are read. -/
def ReadableAlternative (otherwise : Alternative) (ts : List Token) : Prop :=
  ∀ rest, leads Kind.continuesStmt rest = false →
    Derives (.alternative otherwise) (ts ++ rest) rest

section

variable {ts us : List Token}

/-- No statements are read off no tokens. -/
theorem ReadableSequence.nil : ReadableSequence [] [] := by
  intro rest hrest
  refine ⟨.finish hrest, leads_eq_false_mono (fun kind hkind => ?_) hrest⟩
  simp only [Kind.continuesStmt, Bool.or_eq_true, beq_iff_eq] at hkind
  rcases hkind with (rfl | rfl) | rfl <;> rfl

/-- What starts a statement continues none. -/
theorem startsStmt_not_continuesStmt (kind : Kind) (h : startsStmt kind) :
    kind.continuesStmt = false := by
  cases hkind : kind.continuesStmt with
  | false => rfl
  | true =>
    simp only [Kind.continuesStmt, Bool.or_eq_true, beq_iff_eq] at hkind
    rcases hkind with (rfl | rfl) | rfl <;> cases h

/-- A readable statement may stand in front of a readable sequence. -/
theorem ReadableSequence.cons {s : Stmt} {body : List Stmt} (hs : Readable s ts)
    (hbody : ReadableSequence body us) : ReadableSequence (s :: body) (ts ++ us) := by
  intro rest hrest
  obtain ⟨hsequence, hnext⟩ := hbody rest hrest
  have hone := hs (us ++ rest) hnext
  rw [← List.append_assoc] at hone
  exact ⟨.next hone hsequence, leads_eq_false_of startsStmt_not_continuesStmt hone.starts⟩

/-- A block is read from what it is written as. -/
theorem derives_block_write {body : List Stmt}
    (hbody : ∀ {ts}, Fill (writeEach body) ts → ReadableSequence body ts)
    (h : Fill (writeIndented (writeEach body)) ts) (rest : List Token) :
    ∃ opening us, ts ++ rest = opening :: us ∧ opening.kind = .indent ∧
      Derives (.block body) (opening :: us) rest := by
  obtain ⟨opening, us, rfl, hopening, hafter⟩ := h.uncons
  obtain ⟨us, vs, rfl, hinner, hend⟩ := hafter.split
  obtain ⟨closing, vs, rfl, hclosing, hnil⟩ := hend.uncons
  rw [hnil.eq_nil]
  refine ⟨opening, us ++ closing :: rest, by simp, hopening, ?_⟩
  exact .block hopening (hbody hinner (closing :: rest) (by simpa using hclosing)).1 hclosing

/-- A body is read off what it is written as if its statements are. -/
theorem ReadableBody.write {body : List Stmt}
    (hbody : ∀ {ts}, Fill (writeEach body) ts → ReadableSequence body ts)
    (h : Fill (writeBody (writeEach body)) ts) : ReadableBody body ts := by
  intro rest
  obtain ⟨colon, us, rfl, hcolon, hafter⟩ := h.uncons
  obtain ⟨newline, us, rfl, hnewline, hafter⟩ := hafter.uncons
  obtain ⟨opening, vs, hvs, hopening, hblock⟩ := derives_block_write hbody hafter rest
  rw [← hvs] at hblock
  exact ⟨.body hcolon hnewline hblock, Expr.not_extends_of_kind hcolon rfl _⟩

/-- The end of a line behind an expression ends a statement that fills a line. -/
theorem dropNewlines_line {newline : Token} (hnewline : newline.kind = .newline)
    {rest : List Token} (hrest : leads Kind.continuesStmt rest = false) :
    dropNewlines (newline :: rest) = rest := by
  rw [dropNewlines_newline hnewline]
  refine dropNewlines_of_not_leads (leads_eq_false_mono (fun kind hkind => ?_) hrest)
  simp [Kind.continuesStmt, eq_of_beq hkind]

/-- An expression statement is read off its value and a newline. -/
theorem Readable.expression {value : Expr} {newline : Token} (hnewline : newline.kind = .newline)
    (hvalue : value.Readable ts) (hassign : value.isAssignment = false) :
    Readable (.expression value) (ts ++ [newline]) := by
  intro rest hrest
  have hwhole := hvalue.whole (Expr.not_extends_of_kind hnewline rfl rest)
  have hderives := Derives.expression hwhole (startsAssignment_eq_false hwhole hassign)
  rw [dropNewlines_line hnewline hrest] at hderives
  simpa using hderives

/-- A print statement is read off its keyword, its value in parentheses and a newline. -/
theorem Readable.print {keyword opening closing newline : Token} {value : Expr}
    (hkeyword : keyword.kind = .keyword .print_) (hopening : opening.kind = .symbol .leftParen)
    (hclosing : closing.kind = .symbol .rightParen) (hnewline : newline.kind = .newline)
    (hvalue : value.Readable ts) :
    Readable (.print keyword value) (keyword :: opening :: (ts ++ [closing, newline])) := by
  intro rest hrest
  have hwhole := hvalue.whole (Expr.not_extends_of_kind hclosing rfl (newline :: rest))
  have hderives := Derives.print hkeyword hopening hwhole hclosing
  rw [dropNewlines_line hnewline hrest] at hderives
  simpa using hderives

/-- An assignment is read off its name, its sign, its value and a newline. -/
theorem Readable.assign {name sign newline : Token} {value : Expr}
    (hname : name.kind = .identifier) (hsign : sign.kind = .symbol .equal)
    (hnewline : newline.kind = .newline) (hvalue : value.Readable ts) :
    Readable (.assign name value) (name :: sign :: (ts ++ [newline])) := by
  intro rest hrest
  have hwhole := hvalue.whole (Expr.not_extends_of_kind hnewline rfl rest)
  have hderives := Derives.assign hname hsign hwhole
  rw [dropNewlines_line hnewline hrest] at hderives
  simpa using hderives

/-- A return without value is read off its keyword and a newline. -/
theorem Readable.returnNothing {keyword newline : Token}
    (hkeyword : keyword.kind = .keyword .return_) (hnewline : newline.kind = .newline) :
    Readable (.return keyword none) [keyword, newline] := by
  intro rest hrest
  have hderives : Derives (.one (.return keyword none)) (keyword :: newline :: rest)
      (dropNewlines (newline :: rest)) :=
    .returnNothing hkeyword (by simp [hnewline])
  rwa [dropNewlines_line hnewline hrest] at hderives

/-- A return with a value is read off its keyword, its value and a newline. -/
theorem Readable.returnValue {keyword newline : Token} {value : Expr}
    (hkeyword : keyword.kind = .keyword .return_) (hnewline : newline.kind = .newline)
    (hvalue : value.Readable ts) :
    Readable (.return keyword (some value)) (keyword :: (ts ++ [newline])) := by
  intro rest hrest
  have hwhole := hvalue.whole (Expr.not_extends_of_kind hnewline rfl rest)
  have hderives := Derives.returnValue hkeyword hwhole
  rw [dropNewlines_line hnewline hrest] at hderives
  simpa using hderives

/-- A condition or iterable in front of a body. -/
theorem ReadableBody.expression {value : Expr} {body : List Stmt} (hvalue : value.Readable ts)
    (hbody : ReadableBody body us) (rest : List Token) :
    Expr.Derives (.whole value) (ts ++ (us ++ rest)) (us ++ rest) :=
  hvalue.whole (hbody rest).2

/-- A while loop is read off its keyword, its condition and its body. -/
theorem Readable.loop {keyword : Token} {condition : Expr} {body : List Stmt}
    (hkeyword : keyword.kind = .keyword .while_) (hcondition : condition.Readable ts)
    (hbody : ReadableBody body us) : Readable (.loop condition body) (keyword :: (ts ++ us)) := by
  intro rest _
  have hderives := Derives.loop hkeyword (hbody.expression hcondition rest) (hbody rest).1
  simpa using hderives

/-- A loop over elements is read off its head and its body. -/
theorem Readable.forEach {keyword name in_ : Token} {iterable : Expr} {body : List Stmt}
    (hkeyword : keyword.kind = .keyword .for_) (hname : name.kind = .identifier)
    (hin : in_.kind = .keyword .in_) (hiterable : iterable.Readable ts)
    (hbody : ReadableBody body us) :
    Readable (.forEach name iterable body) (keyword :: name :: in_ :: (ts ++ us)) := by
  intro rest _
  have hderives :=
    Derives.forEach hkeyword hname hin (hbody.expression hiterable rest) (hbody rest).1
  simpa using hderives

/-- A conditional is read off its condition, its body and its alternative. -/
theorem Readable.branch {keyword : Token} {condition : Expr} {body : List Stmt}
    {otherwise : Alternative} {vs : List Token} (hkeyword : keyword.kind = .keyword .if_)
    (hcondition : condition.Readable ts) (hbody : ReadableBody body us)
    (hotherwise : ReadableAlternative otherwise vs) :
    Readable (.branch condition body otherwise) (keyword :: (ts ++ (us ++ vs))) := by
  intro rest hrest
  have hderives := Derives.branch hkeyword (hbody.expression hcondition (vs ++ rest))
    (hbody (vs ++ rest)).1 (hotherwise rest hrest)
  simpa using hderives

/-- No alternative is read off no tokens. -/
theorem ReadableAlternative.nothing : ReadableAlternative .nothing [] := by
  intro rest hrest
  refine .nothing (leads_eq_false_mono (fun kind hkind => ?_) hrest)
    (leads_eq_false_mono (fun kind hkind => ?_) hrest)
  · simp [Kind.continuesStmt, eq_of_beq hkind]
  · simp [Kind.continuesStmt, eq_of_beq hkind]

/-- A further condition is read off its keyword, its body and its alternative. -/
theorem ReadableAlternative.another {keyword : Token} {condition : Expr} {body : List Stmt}
    {otherwise : Alternative} {vs : List Token} (hkeyword : keyword.kind = .keyword .elif_)
    (hcondition : condition.Readable ts) (hbody : ReadableBody body us)
    (hotherwise : ReadableAlternative otherwise vs) :
    ReadableAlternative (.another condition body otherwise) (keyword :: (ts ++ (us ++ vs))) := by
  intro rest hrest
  have hderives := Derives.another hkeyword (hbody.expression hcondition (vs ++ rest))
    (hbody (vs ++ rest)).1 (hotherwise rest hrest)
  simpa using hderives

/-- A last alternative is read off its keyword and its body. -/
theorem ReadableAlternative.last {keyword : Token} {body : List Stmt}
    (hkeyword : keyword.kind = .keyword .else_) (hbody : ReadableBody body ts) :
    ReadableAlternative (.last body) (keyword :: ts) :=
  fun rest _ => .last hkeyword (hbody rest).1

/-- The bounds of a counting loop are read from what they are written as. -/
theorem derivesRange_write {start step : Option Expr} {stop : Expr} {opening closing : Token}
    (hopening : opening.kind = .symbol .leftParen) (hclosing : closing.kind = .symbol .rightParen)
    (hstart : start.all Expr.isCanonical) (hstop : stop.isCanonical)
    (hstep : step.all Expr.isCanonical) (horder : start.isSome || step.isNone)
    (h : Fill (Expr.writeItems (start.toList ++ stop :: step.toList)) ts) (rest : List Token) :
    DerivesRange start stop step (opening :: (ts ++ closing :: rest)) rest := by
  have hend := Expr.not_extends_of_kind hclosing rfl rest (r := 0)
  cases start with
  | none =>
    cases step with
    | some step => cases horder
    | none =>
      obtain ⟨us, vs, rfl, hfill, hnil⟩ := h.split
      rw [hnil.eq_nil, List.append_nil]
      exact .stop hopening ((Expr.readable_write stop hstop hfill).whole hend) hclosing
  | some start =>
    obtain ⟨us, vs, rfl, hfill, hmore⟩ := h.split
    obtain ⟨comma, vs, rfl, hcomma, hmore⟩ := hmore.uncons
    obtain ⟨vs, ws, rfl, hfill', hmore⟩ := hmore.split
    have hreads := Expr.readable_write start hstart hfill
    have hreads' := Expr.readable_write stop hstop hfill'
    have hbefore (rest : List Token) := Expr.not_extends_of_kind hcomma rfl rest (r := 0)
    cases step with
    | none =>
      rw [hmore.eq_nil]
      simpa using DerivesRange.start hopening (hreads.whole (hbefore (vs ++ closing :: rest)))
        hcomma (hreads'.whole hend) hclosing
    | some step =>
      obtain ⟨comma', ws, rfl, hcomma', hmore⟩ := hmore.uncons
      obtain ⟨ws, xs, rfl, hfill'', hnil⟩ := hmore.split
      rw [hnil.eq_nil]
      have hreads'' := Expr.readable_write step hstep hfill''
      have hbefore' := Expr.not_extends_of_kind hcomma' rfl (ws ++ closing :: rest) (r := 0)
      simpa using DerivesRange.step hopening
        (hreads.whole (hbefore (vs ++ comma' :: (ws ++ closing :: rest)))) hcomma
        (hreads'.whole hbefore') hcomma' (hreads''.whole hend) hclosing

/-- Further parameters are derived from their names behind commas. -/
theorem derivesNames_write {names : List Token} (hnames : names.all (·.kind == .identifier))
    (h : Fill (writeMoreNames names) ts) {rest : List Token}
    (hrest : leads (· == .symbol .comma) rest = false) :
    DerivesNames names (ts ++ rest) rest := by
  induction names generalizing ts with
  | nil =>
    rw [h.eq_nil]
    exact .nil hrest
  | cons name names ih =>
    obtain ⟨comma, us, rfl, hcomma, hafter⟩ := h.uncons
    obtain ⟨_, us, rfl, rfl, hothers⟩ := hafter.uncons
    simp only [List.all_cons, Bool.and_eq_true, beq_iff_eq] at hnames
    exact .cons hcomma hnames.1 (ih hnames.2 hothers)

/-- The parameters of a function are read from what they are written as. -/
theorem derivesParameters_write {names : List Token} {opening closing : Token}
    (hopening : opening.kind = .symbol .leftParen) (hclosing : closing.kind = .symbol .rightParen)
    (hnames : names.all (·.kind == .identifier)) (h : Fill (writeNames names) ts)
    (rest : List Token) :
    DerivesParameters names (opening :: (ts ++ closing :: rest)) rest := by
  cases names with
  | nil =>
    rw [h.eq_nil]
    exact .none hopening hclosing
  | cons name names =>
    obtain ⟨_, us, rfl, rfl, hafter⟩ := h.uncons
    simp only [List.all_cons, Bool.and_eq_true, beq_iff_eq] at hnames
    have hstop : leads (· == .symbol .comma) (closing :: rest) = false := by simp [hclosing]
    exact .some hopening hnames.1 (derivesNames_write hnames.2 hafter hstop) hclosing

end

mutual

/-- A canonical statement is read from what it is written as. -/
theorem readable_write (s : Stmt) (hcanonical : s.isCanonical) {ts : List Token}
    (h : Fill s.write ts) : Readable s ts := by
  match s with
  | .expression value =>
    obtain ⟨us, vs, rfl, hvalue, hend⟩ := h.split
    obtain ⟨newline, vs, rfl, hnewline, hnil⟩ := hend.uncons
    rw [hnil.eq_nil]
    simp only [isCanonical, Bool.and_eq_true, Bool.not_eq_true'] at hcanonical
    exact .expression hnewline (Expr.readable_write value hcanonical.1 hvalue) hcanonical.2
  | .print keyword value =>
    obtain ⟨_, us, rfl, rfl, hafter⟩ := h.uncons
    obtain ⟨opening, us, rfl, hopening, hafter⟩ := hafter.uncons
    obtain ⟨us, vs, rfl, hvalue, hend⟩ := hafter.split
    obtain ⟨closing, vs, rfl, hclosing, hend⟩ := hend.uncons
    obtain ⟨newline, vs, rfl, hnewline, hnil⟩ := hend.uncons
    rw [hnil.eq_nil]
    simp only [isCanonical, Bool.and_eq_true, beq_iff_eq] at hcanonical
    exact .print hcanonical.1 hopening hclosing hnewline
      (Expr.readable_write value hcanonical.2 hvalue)
  | .assign name value =>
    obtain ⟨_, us, rfl, rfl, hafter⟩ := h.uncons
    obtain ⟨sign, us, rfl, hsign, hafter⟩ := hafter.uncons
    obtain ⟨us, vs, rfl, hvalue, hend⟩ := hafter.split
    obtain ⟨newline, vs, rfl, hnewline, hnil⟩ := hend.uncons
    rw [hnil.eq_nil]
    simp only [isCanonical, Bool.and_eq_true, beq_iff_eq] at hcanonical
    exact .assign hcanonical.1 hsign hnewline (Expr.readable_write value hcanonical.2 hvalue)
  | .block body =>
    intro rest _
    obtain ⟨opening, us, hus, hopening, hblock⟩ :=
      derives_block_write (readableSequence_write body hcanonical) h rest
    rw [hus]
    exact .nested hopening hblock
  | .branch condition body otherwise =>
    obtain ⟨keyword, us, rfl, hkeyword, hafter⟩ := h.uncons
    obtain ⟨us, vs, rfl, hcondition, hafter⟩ := hafter.split
    obtain ⟨vs, ws, rfl, hbody, hotherwise⟩ := hafter.split
    simp only [isCanonical, Bool.and_eq_true] at hcanonical
    exact .branch hkeyword (Expr.readable_write condition hcanonical.1.1 hcondition)
      (.write (readableSequence_write body hcanonical.1.2) hbody)
      (readableAlternative_write otherwise hcanonical.2 hotherwise)
  | .loop condition body =>
    obtain ⟨keyword, us, rfl, hkeyword, hafter⟩ := h.uncons
    obtain ⟨us, vs, rfl, hcondition, hbody⟩ := hafter.split
    simp only [isCanonical, Bool.and_eq_true] at hcanonical
    exact .loop hkeyword (Expr.readable_write condition hcanonical.1 hcondition)
      (.write (readableSequence_write body hcanonical.2) hbody)
  | .forRange name start stop step body =>
    obtain ⟨keyword, us, rfl, hkeyword, hafter⟩ := h.uncons
    obtain ⟨_, us, rfl, rfl, hbehind⟩ := hafter.uncons
    obtain ⟨in_, us, rfl, hin, hafter⟩ := hbehind.uncons
    obtain ⟨range, us, rfl, hrange, hafter⟩ := hafter.uncons
    obtain ⟨opening, us, rfl, hopening, hafter⟩ := hafter.uncons
    obtain ⟨us, vs, rfl, hbounds, hafter⟩ := hafter.split
    obtain ⟨closing, vs, rfl, hclosing, hbody⟩ := hafter.uncons
    simp only [isCanonical, Bool.and_eq_true, beq_iff_eq] at hcanonical
    obtain ⟨⟨⟨⟨⟨hname, hstart⟩, hstop⟩, hstep⟩, horder⟩, hcanonical⟩ := hcanonical
    intro rest _
    have hderives := Derives.forRange hkeyword hname hin hrange
      (derivesRange_write hopening hclosing hstart hstop hstep horder hbounds (vs ++ rest))
      (ReadableBody.write (readableSequence_write body hcanonical) hbody rest).1
    simpa using hderives
  | .forEach name iterable body =>
    obtain ⟨keyword, us, rfl, hkeyword, hafter⟩ := h.uncons
    obtain ⟨_, us, rfl, rfl, hbehind⟩ := hafter.uncons
    obtain ⟨in_, us, rfl, hin, hafter⟩ := hbehind.uncons
    obtain ⟨us, vs, rfl, hiterable, hbody⟩ := hafter.split
    simp only [isCanonical, Bool.and_eq_true, beq_iff_eq] at hcanonical
    exact .forEach hkeyword hcanonical.1.1 hin
      (Expr.readable_write iterable hcanonical.1.2 hiterable)
      (.write (readableSequence_write body hcanonical.2) hbody)
  | .define name parameters body =>
    obtain ⟨keyword, us, rfl, hkeyword, hafter⟩ := h.uncons
    obtain ⟨_, us, rfl, rfl, hbehind⟩ := hafter.uncons
    obtain ⟨opening, us, rfl, hopening, hafter⟩ := hbehind.uncons
    obtain ⟨us, vs, rfl, hnames, hafter⟩ := hafter.split
    obtain ⟨closing, vs, rfl, hclosing, hbody⟩ := hafter.uncons
    simp only [isCanonical, Bool.and_eq_true, beq_iff_eq] at hcanonical
    intro rest _
    have hderives := Derives.define hkeyword hcanonical.1.1
      (derivesParameters_write hopening hclosing hcanonical.1.2 hnames (vs ++ rest))
      (ReadableBody.write (readableSequence_write body hcanonical.2) hbody rest).1
    simpa using hderives
  | .return keyword none =>
    obtain ⟨_, us, rfl, rfl, hafter⟩ := h.uncons
    obtain ⟨newline, us, rfl, hnewline, hnil⟩ := hafter.uncons
    rw [hnil.eq_nil]
    simp only [isCanonical, Bool.and_eq_true, beq_iff_eq] at hcanonical
    exact .returnNothing hcanonical.1 hnewline
  | .return keyword (some value) =>
    obtain ⟨_, us, rfl, rfl, hafter⟩ := h.uncons
    obtain ⟨us, vs, rfl, hvalue, hend⟩ := hafter.split
    obtain ⟨newline, vs, rfl, hnewline, hnil⟩ := hend.uncons
    rw [hnil.eq_nil]
    simp only [isCanonical, Bool.and_eq_true, beq_iff_eq] at hcanonical
    exact .returnValue hcanonical.1 hnewline (Expr.readable_write value hcanonical.2 hvalue)

/-- So is a canonical alternative. -/
theorem readableAlternative_write (otherwise : Alternative) (hcanonical : otherwise.isCanonical)
    {ts : List Token} (h : Fill otherwise.write ts) : ReadableAlternative otherwise ts := by
  match otherwise with
  | .nothing =>
    rw [h.eq_nil]
    exact .nothing
  | .another condition body otherwise =>
    obtain ⟨keyword, us, rfl, hkeyword, hafter⟩ := h.uncons
    obtain ⟨us, vs, rfl, hcondition, hafter⟩ := hafter.split
    obtain ⟨vs, ws, rfl, hbody, hotherwise⟩ := hafter.split
    simp only [Alternative.isCanonical, Bool.and_eq_true] at hcanonical
    exact .another hkeyword (Expr.readable_write condition hcanonical.1.1 hcondition)
      (.write (readableSequence_write body hcanonical.1.2) hbody)
      (readableAlternative_write otherwise hcanonical.2 hotherwise)
  | .last body =>
    obtain ⟨keyword, us, rfl, hkeyword, hbody⟩ := h.uncons
    exact .last hkeyword (.write (readableSequence_write body hcanonical) hbody)

/-- So are canonical statements. -/
theorem readableSequence_write (body : List Stmt) (hcanonical : areCanonical body)
    {ts : List Token} (h : Fill (writeEach body) ts) : ReadableSequence body ts := by
  match body with
  | [] =>
    rw [h.eq_nil]
    exact .nil
  | s :: body =>
    obtain ⟨us, vs, rfl, hs, hbody⟩ := h.split
    simp only [areCanonical, Bool.and_eq_true] at hcanonical
    exact .cons (readable_write s hcanonical.1 hs) (readableSequence_write body hcanonical.2 hbody)

end

end Stmt

/-- A canonical program is parsed, without errors and as itself, from any tokens that fill the
places it is written in and the end of the input behind them. -/
theorem parse_write (program : List Stmt) (hcanonical : areCanonical program) {ts : List Token}
    (h : Fill (writeEach program) ts) {finish : Token} (hfinish : finish.kind = .endOfInput) :
    parse (ts ++ [finish]) = ⟨program, [], finish⟩ := by
  have hderives : Stmt.Derives (.sequence program) ts [] := by
    simpa using (Stmt.readableSequence_write program hcanonical h [] rfl).1
  obtain ⟨hbefore, hend⟩ := tokensBeforeEnd_append (fun _ => hderives.balanced.inside) hfinish
  obtain ⟨hprogram, herrors⟩ := parse_eq_clean.mpr (hbefore.symm ▸ hderives)
  calc
    parse (ts ++ [finish])
      = ⟨(parse (ts ++ [finish])).program, (parse (ts ++ [finish])).errors,
          (parse (ts ++ [finish])).finish⟩ := rfl
    _ = ⟨program, [], finish⟩ := by rw [hprogram, herrors, parse_finish, hend]

/-- A token that may stand in a place. -/
def Slot.sample : Slot → Token
  | exactly t => t
  | any kind => ⟨kind, "", 1, .point 0⟩

/-- Every place can be filled. -/
theorem fill_sample (slots : List Slot) : Fill slots (slots.map Slot.sample) := by
  induction slots with
  | nil => exact List.Forall₂.nil
  | cons slot slots ih => exact List.Forall₂.cons (by cases slot <;> rfl) ih

/-- A program that nests operators, clauses and loops. -/
def nestedProgram : List Stmt :=
  let name (text : String) : Token := ⟨.identifier, text, 1, .point 0⟩
  let sign (s : Symbol) : Token := ⟨.symbol s, s.text, 1, .point 0⟩
  let word (k : Keyword) : Token := ⟨.keyword k, k.text, 1, .point 0⟩
  let x : Expr := .variable (name "x")
  let opposite : Expr := .unary (sign .minus) x
  let difference : Expr := .binary (.binary x (sign .minus) x) (sign .minus) opposite
  let tower : Expr := .binary x (sign .power) (.binary (.grouping difference) (sign .power) x)
  [.define (name "f") [name "x", name "y"]
      [.branch (.logical (.logical x (word .or_) tower) (word .or_) difference)
          [.forRange (name "i") (some x) difference none [.print (word .print_) tower]]
          (.another (.call (name "g") [.assign (name "x") tower, .list []])
            [.block [.expression (.slice (name "x") tower difference)]]
            (.last [.return (word .return_) (some x)])),
        .loop x []],
    .assign (name "y") (.assign (name "x") (.literal (.boolean true)))]

/-- A program with a block in a block is canonical and comes back from its tokens. -/
theorem parse_write_nestedProgram :
    areCanonical nestedProgram ∧
      parse ((writeEach nestedProgram).map Slot.sample ++ [⟨.endOfInput, "", 1, .point 0⟩]) =
        ⟨nestedProgram, [], ⟨.endOfInput, "", 1, .point 0⟩⟩ :=
  ⟨by decide, parse_write nestedProgram (by decide) (fill_sample _) rfl⟩

end Offside
