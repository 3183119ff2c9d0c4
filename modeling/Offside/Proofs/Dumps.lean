import Offside.Proofs.OutlineReading

/-!
# Dumps

The dump of a program tells the program: two sources without errors whose dumps agree have programs
that differ in positions only. Their trees hold nothing that a dump would hide, because their names
and operators are spelled as the scanner spells them, and no string has a quote inside.
-/

namespace Offside

/-! ## Trees of sources are legible -/

/-- Whether a token of this kind is not a number beyond all finite ones. -/
def Kind.isFinite : Kind → Bool
  | .number value => Number.isFinite value
  | _ => true

/-- A token of which a dump keeps all but the position. -/
structure Token.Legible (t : Token) : Prop where
  spelled : t.Spelled
  finite : t.kind.isFinite

section Tokens

variable {t : Token}

/-- A legible identifier is a name. -/
theorem Token.Legible.isName (h : t.Legible) (hkind : t.kind = .identifier) : t.IsName := by
  have htext := h.spelled.spelling (by rw [hkind]; rfl)
  generalize hletters : t.lexeme.toList = letters at htext
  generalize hk : t.kind = kind at htext
  cases htext with
  | @word c cs hc hcs =>
    refine ⟨hkind, ⟨c, cs, hletters, hc, hcs⟩, ?_⟩
    rw [← String.ofList_toList (s := t.lexeme), hletters]
    exact wordKind_eq_identifier_iff.mp (hk.symm.trans hkind)
  | _ => rw [hk] at hkind; cases hkind

/-- A legible token of one of some kinds is spelled as that kind. -/
theorem Token.Legible.isAmong (h : t.Legible) {kinds : List Kind} (hmem : t.kind ∈ kinds)
    (hkinds : ∀ kind ∈ kinds, kind.spelling?.isSome) : t.IsAmong kinds := by
  obtain ⟨spelling, hspelling⟩ := Option.isSome_iff_exists.mp (hkinds t.kind hmem)
  exact ⟨hmem, by rw [h.spelled.spelling?_eq hspelling, hspelling]⟩

/-- A literal that is read off a legible token is legible. -/
theorem Token.Legible.literal (h : t.Legible) {value : Literal}
    (hvalue : t.kind.literal? = some value) : value.Legible := by
  obtain ⟨hspelled, hfinite⟩ := h
  generalize hk : t.kind = kind at hvalue hfinite
  cases kind with
  | number x =>
    cases hvalue
    exact hfinite
  | string contents =>
    cases hvalue
    have htext := hspelled.spelling (by rw [hk]; rfl)
    rw [hk] at htext
    exact htext.quote_not_mem
  | keyword k => cases k <;> cases hvalue <;> trivial
  | _ => cases hvalue

end Tokens

/-- Tokens of which a dump keeps all but the positions. -/
def AllLegible (ts : List Token) : Prop := ∀ t ∈ ts, t.Legible

/-- Legible tokens have a legible first one and legible others. -/
theorem AllLegible.uncons {t : Token} {ts : List Token} (h : AllLegible (t :: ts)) :
    t.Legible ∧ AllLegible ts :=
  List.forall_mem_cons.mp h

/-- Line ends may be left out. -/
theorem AllLegible.dropNewlines {ts : List Token} (h : AllLegible ts) :
    AllLegible (dropNewlines ts) :=
  fun t ht => h t ((List.dropWhile_suffix _).subset ht)

namespace Expr

/-- A unary operation on a legible operand is legible, also if it is folded into a literal. -/
theorem legible_applyPrefix {operator : Token} {e : Expr}
    (hoperator : operator.IsAmong prefixOperators) (he : e.Legible) :
    (applyPrefix operator e).Legible := by
  unfold applyPrefix
  split
  · split
    · exact (by decide +kernel : Number.isFinite 0.0)
    · exact ⟨hoperator, he⟩
  · exact ⟨hoperator, he⟩

/-- A binary operation on legible operands is legible. -/
theorem legible_join {i : Nat} {level : Level} (hlevel : levels[i]? = some level) {operator : Token}
    (hoperator : operator.Legible) (hkind : operator.kind ∈ level.operators) {left right : Expr}
    (hleft : left.Legible) (hright : right.Legible) :
    (level.join left operator right).Legible := by
  have hmem := List.mem_of_getElem? hlevel
  simp only [levels, List.mem_cons, List.not_mem_nil, or_false] at hmem
  have hnodes : level.join = .logical ∧ level.operators ⊆ logicalOperators ∨
      level.join = .binary ∧ level.operators ⊆ binaryOperators := by
    rcases hmem with rfl | rfl | rfl | rfl | rfl | rfl <;> simp [logicalOperators, binaryOperators]
  rcases hnodes with ⟨hjoin, hoperators⟩ | ⟨hjoin, hoperators⟩
  · rw [hjoin]
    exact ⟨hoperator.isAmong (hoperators hkind) (by decide), hleft, hright⟩
  · rw [hjoin]
    exact ⟨hoperator.isAmong (hoperators hkind) (by decide), hleft, hright⟩

/-- What is said about the expressions of a phrase. -/
def Phrase.Legible : Phrase → Prop
  | .whole e | .operation _ e | .signed e | .power e | .primary e => e.Legible
  | .chain _ left e => left.Legible → e.Legible
  | .items _ es | .more es => EachLegible es

/-- The grammar derives legible expressions from legible tokens. -/
theorem Derives.legible {phrase : Phrase} {ts rest : List Token} (h : Derives phrase ts rest)
    (hts : AllLegible ts) : phrase.Legible ∧ AllLegible rest := by
  induction h with
  | operation _ _ ih | tightest _ _ ih | unsigned _ ih | base _ _ ih => exact ih hts
  | assign _ _ _ ih ih' =>
    obtain ⟨hname, hmid⟩ := ih hts
    obtain ⟨hvalue, hrest⟩ := ih' hmid.uncons.2
    exact ⟨⟨hname, hvalue⟩, hrest⟩
  | level _ _ _ ih ih' =>
    obtain ⟨hleft, hmid⟩ := ih hts
    obtain ⟨he, hrest⟩ := ih' hmid
    exact ⟨he hleft, hrest⟩
  | chainEnd _ _ => exact ⟨id, hts⟩
  | chainStep hlevel hkind _ _ ih ih' =>
    obtain ⟨hoperator, hts⟩ := hts.uncons
    obtain ⟨hright, hmid⟩ := ih hts
    obtain ⟨he, hrest⟩ := ih' hmid
    exact ⟨fun hleft => he (legible_join hlevel hoperator hkind hleft hright), hrest⟩
  | sign hkind _ ih =>
    obtain ⟨hoperator, hts⟩ := hts.uncons
    obtain ⟨he, hrest⟩ := ih hts
    exact ⟨legible_applyPrefix (hoperator.isAmong hkind (by decide)) he, hrest⟩
  | raise _ hkind _ ih ih' =>
    obtain ⟨hbase, hmid⟩ := ih hts
    obtain ⟨hoperator, hmid⟩ := hmid.uncons
    obtain ⟨hexponent, hrest⟩ := ih' hmid
    have hmem := List.mem_of_elem_eq_true
      (show binaryOperators.elem (.symbol .power) = true by decide)
    exact ⟨⟨hoperator.isAmong (hkind ▸ hmem) (by decide), hbase, hexponent⟩, hrest⟩
  | literal hvalue => exact ⟨hts.uncons.1.literal hvalue, hts.uncons.2⟩
  | «variable» hkind _ _ => exact ⟨hts.uncons.1.isName hkind, hts.uncons.2⟩
  | grouping _ _ _ ih | list _ _ _ ih =>
    obtain ⟨he, hrest⟩ := ih hts.uncons.2
    exact ⟨he, hrest.uncons.2⟩
  | element hkind _ _ _ ih | call hkind _ _ _ ih =>
    obtain ⟨hname, hts⟩ := hts.uncons
    obtain ⟨he, hrest⟩ := ih hts.uncons.2
    exact ⟨⟨hname.isName hkind, he⟩, hrest.uncons.2⟩
  | slice hkind _ _ _ _ _ ih ih' =>
    obtain ⟨hname, hts⟩ := hts.uncons
    obtain ⟨hstart, hmid⟩ := ih hts.uncons.2
    obtain ⟨hstop, hrest⟩ := ih' hmid.uncons.2
    exact ⟨⟨hname.isName hkind, hstart, hstop⟩, hrest.uncons.2⟩
  | stride hkind _ _ _ _ _ _ _ ih ih' ih'' =>
    obtain ⟨hname, hts⟩ := hts.uncons
    obtain ⟨hstart, hmid⟩ := ih hts.uncons.2
    obtain ⟨hstop, hmid'⟩ := ih' hmid.uncons.2
    obtain ⟨hstep, hrest⟩ := ih'' hmid'.uncons.2
    exact ⟨⟨hname.isName hkind, hstart, hstop, hstep⟩, hrest.uncons.2⟩
  | noItems _ | noMore _ => exact ⟨trivial, hts⟩
  | items _ _ _ ih ih' =>
    obtain ⟨he, hmid⟩ := ih hts
    obtain ⟨hes, hrest⟩ := ih' hmid
    exact ⟨⟨he, hes⟩, hrest⟩
  | more _ _ _ ih ih' =>
    obtain ⟨he, hmid⟩ := ih hts.uncons.2
    obtain ⟨hes, hrest⟩ := ih' hmid
    exact ⟨⟨he, hes⟩, hrest⟩

end Expr

namespace Stmt

/-- The bounds of a range are legible, and no step stands without a start. -/
theorem DerivesRange.legible {start step : Option Expr} {stop : Expr} {ts rest : List Token}
    (h : DerivesRange start stop step ts rest) (hts : AllLegible ts) :
    (Expr.OptionalLegible start ∧ stop.Legible ∧ Expr.OptionalLegible step ∧
      (start = none → step = none)) ∧ AllLegible rest := by
  have hnone : Expr.OptionalLegible none := fun _ h => by cases h
  have hsome {e : Expr} (h : e.Legible) : Expr.OptionalLegible (some e) := by
    rintro e' ⟨⟩
    exact h
  cases h with
  | stop _ h _ =>
    obtain ⟨hstop, hrest⟩ := h.legible hts.uncons.2
    exact ⟨⟨hnone, hstop, hnone, fun _ => rfl⟩, hrest.uncons.2⟩
  | start _ h _ h' _ =>
    obtain ⟨hstart, hmid⟩ := h.legible hts.uncons.2
    obtain ⟨hstop, hrest⟩ := h'.legible hmid.uncons.2
    exact ⟨⟨hsome hstart, hstop, hnone, fun _ => rfl⟩, hrest.uncons.2⟩
  | step _ h _ h' _ h'' _ =>
    obtain ⟨hstart, hmid⟩ := h.legible hts.uncons.2
    obtain ⟨hstop, hmid'⟩ := h'.legible hmid.uncons.2
    obtain ⟨hstep, hrest⟩ := h''.legible hmid'.uncons.2
    exact ⟨⟨hsome hstart, hstop, hsome hstep, nofun⟩, hrest.uncons.2⟩

/-- Names separated by commas are names. -/
theorem DerivesNames.legible {names ts rest : List Token} (h : DerivesNames names ts rest)
    (hts : AllLegible ts) : (∀ t ∈ names, t.IsName) ∧ AllLegible rest := by
  induction h with
  | nil _ => exact ⟨by simp, hts⟩
  | cons _ hkind _ ih =>
    obtain ⟨hname, hts⟩ := hts.uncons.2.uncons
    obtain ⟨hnames, hrest⟩ := ih hts
    exact ⟨List.forall_mem_cons.mpr ⟨hname.isName hkind, hnames⟩, hrest⟩

/-- So are parameters. -/
theorem DerivesParameters.legible {parameters ts rest : List Token}
    (h : DerivesParameters parameters ts rest) (hts : AllLegible ts) :
    (∀ t ∈ parameters, t.IsName) ∧ AllLegible rest := by
  cases h with
  | none _ _ => exact ⟨by simp, hts.uncons.2.uncons.2⟩
  | some _ hkind h _ =>
    obtain ⟨hname, hts⟩ := hts.uncons.2.uncons
    obtain ⟨hnames, hrest⟩ := h.legible hts
    exact ⟨List.forall_mem_cons.mpr ⟨hname.isName hkind, hnames⟩, hrest.uncons.2⟩

/-- What is said about the statements of a phrase. -/
def Phrase.Legible : Phrase → Prop
  | .one s => s.Legible
  | .sequence inner | .block inner | .body inner => EachLegible inner
  | .alternative otherwise => otherwise.Legible

/-- The grammar derives legible statements from legible tokens. -/
theorem Derives.legible {phrase : Phrase} {ts rest : List Token} (h : Derives phrase ts rest)
    (hts : AllLegible ts) : phrase.Legible ∧ AllLegible rest := by
  have hword {keyword : Token} {k : Keyword} (h : keyword.Legible)
      (hkind : keyword.kind = .keyword k) : keyword.IsAmong [.keyword k] :=
    h.isAmong (List.mem_singleton.mpr hkind) (by simp [Kind.spelling?])
  induction h with
  | expression h _ =>
    obtain ⟨hvalue, hrest⟩ := h.legible hts
    exact ⟨hvalue, hrest.dropNewlines⟩
  | assign hkind _ h =>
    obtain ⟨hname, hts⟩ := hts.uncons
    obtain ⟨hvalue, hrest⟩ := h.legible hts.uncons.2
    exact ⟨⟨hname.isName hkind, hvalue⟩, hrest.dropNewlines⟩
  | print hkind _ h _ =>
    obtain ⟨hkeyword, hts⟩ := hts.uncons
    obtain ⟨hvalue, hrest⟩ := h.legible hts.uncons.2
    exact ⟨⟨hword hkeyword hkind, hvalue⟩, hrest.uncons.2.dropNewlines⟩
  | returnNothing hkind _ =>
    obtain ⟨hkeyword, hts⟩ := hts.uncons
    exact ⟨⟨hword hkeyword hkind, fun _ h => by cases h⟩, hts.dropNewlines⟩
  | returnValue hkind h =>
    obtain ⟨hkeyword, hts⟩ := hts.uncons
    obtain ⟨hvalue, hrest⟩ := h.legible hts
    refine ⟨⟨hword hkeyword hkind, ?_⟩, hrest.dropNewlines⟩
    rintro e ⟨⟩
    exact hvalue
  | nested _ _ ih => exact ih hts
  | branch _ h _ _ ih ih' =>
    obtain ⟨hcondition, hmid⟩ := h.legible hts.uncons.2
    obtain ⟨hbody, hmid'⟩ := ih hmid
    obtain ⟨hotherwise, hrest⟩ := ih' hmid'
    exact ⟨⟨hcondition, hbody, hotherwise⟩, hrest⟩
  | loop _ h _ ih =>
    obtain ⟨hcondition, hmid⟩ := h.legible hts.uncons.2
    obtain ⟨hbody, hrest⟩ := ih hmid
    exact ⟨⟨hcondition, hbody⟩, hrest⟩
  | forRange _ hkind _ _ h _ ih =>
    obtain ⟨hname, hts⟩ := hts.uncons.2.uncons
    obtain ⟨⟨hstart, hstop, hstep, hshape⟩, hmid⟩ := h.legible hts.uncons.2.uncons.2
    obtain ⟨hbody, hrest⟩ := ih hmid
    exact ⟨⟨hname.isName hkind, hstart, hstop, hstep, hshape, hbody⟩, hrest⟩
  | forEach _ hkind _ h _ ih =>
    obtain ⟨hname, hts⟩ := hts.uncons.2.uncons
    obtain ⟨hiterable, hmid⟩ := h.legible hts.uncons.2
    obtain ⟨hbody, hrest⟩ := ih hmid
    exact ⟨⟨hname.isName hkind, hiterable, hbody⟩, hrest⟩
  | define _ hkind h _ ih =>
    obtain ⟨hname, hts⟩ := hts.uncons.2.uncons
    obtain ⟨hparameters, hmid⟩ := h.legible hts
    obtain ⟨hbody, hrest⟩ := ih hmid
    exact ⟨⟨hname.isName hkind, hparameters, hbody⟩, hrest⟩
  | emptyLine _ _ ih => exact ih hts.uncons.2
  | finish _ => exact ⟨trivial, hts⟩
  | next _ _ ih ih' =>
    obtain ⟨hs, hmid⟩ := ih hts
    obtain ⟨hbody, hrest⟩ := ih' hmid
    exact ⟨⟨hs, hbody⟩, hrest⟩
  | skip _ _ ih => exact ih hts.uncons.2
  | block _ _ _ ih =>
    obtain ⟨hbody, hrest⟩ := ih hts.uncons.2
    exact ⟨hbody, hrest.uncons.2⟩
  | body _ _ _ ih => exact ih hts.uncons.2.uncons.2
  | nothing _ _ => exact ⟨trivial, hts⟩
  | another _ h _ _ ih ih' =>
    obtain ⟨hcondition, hmid⟩ := h.legible hts.uncons.2
    obtain ⟨hbody, hmid'⟩ := ih hmid
    obtain ⟨hotherwise, hrest⟩ := ih' hmid'
    exact ⟨⟨hcondition, hbody, hotherwise⟩, hrest⟩
  | last _ _ ih => exact ih hts.uncons.2

end Stmt

/-- The program of a source that is accepted is legible, if its numbers are finite. -/
theorem legible_check {source : String} (h : (check source).diagnostics = [])
    (hfinite : ∀ t ∈ (scan source).tokens, t.kind.isFinite) :
    Stmt.EachLegible (check source).program := by
  obtain ⟨-, hderives⟩ := check_eq_clean.mp (check_eq_of_diagnostics h)
  have hbody : AllLegible (bodyOf source) := by
    intro t ht
    have hmem : t ∈ (scan source).tokens := (List.takeWhile_prefix _).subset ht
    exact ⟨spelled_scan source t hmem, hfinite t hmem⟩
  exact (hderives.legible hbody).1

/-! ## Dumps tell programs -/

/-- Texts of finite numbers can be read back. -/
theorem exists_readsBack : ∃ number : String → Float, ReadsBack number := by
  have hinjective : Set.InjOn (Number.text .listing) {x | Number.isFinite x} :=
    fun x hx y hy h => Number.text_injective hx hy h
  exact ⟨_, fun x hx => hinjective.leftInvOn_invFunOn hx⟩

/-- Two sources without errors, whose number literals are finite and whose programs are dumped
alike, have programs that differ in the positions of tokens only. -/
theorem program_eq_of_dump_eq {source source' : String} (h : (check source).diagnostics = [])
    (h' : (check source').diagnostics = [])
    (hfinite : ∀ t ∈ (scan source).tokens, t.kind.isFinite)
    (hfinite' : ∀ t ∈ (scan source').tokens, t.kind.isFinite)
    (hdump : dumpProgram (check source).program = dumpProgram (check source').program) :
    Stmt.moveEach Token.bare (check source).program =
      Stmt.moveEach Token.bare (check source').program := by
  have hlegible := legible_check h hfinite
  have hlegible' := legible_check h' hfinite'
  have htext : Entry.textEach 0 (Stmt.entriesEach (check source).program) ++ [] =
      Entry.textEach 0 (Stmt.entriesEach (check source').program) ++ [] := by
    rw [dumpProgram, dumpProgram] at hdump
    rw [← Stmt.toList_dumpEach, ← Stmt.toList_dumpEach, hdump]
  have hends : Entry.Ends 0 [] := by simp [Entry.Ends]
  obtain ⟨hentries, -⟩ :=
    Entry.textEach_append_inj hlegible.wellFormed hlegible'.wellFormed hends hends htext
  obtain ⟨number, hnumber⟩ := exists_readsBack
  have hread := hlegible.ofEntries? hnumber
  rw [hentries, hlegible'.ofEntries? hnumber] at hread
  exact (Prod.mk.inj (Option.some.inj hread)).2.symm

/-- A branch and a function, with a string that looks like the end of an entry. -/
def outlined : String := "if a:\n  b = \")\n  (\"\nelse:\n  def f(x):\n    return -1"

/-- The same program in another layout. -/
def respaced : String := "if a :\n b=\")\n  (\" # c\n\nelse:\n def f( x ):\n   return - 1\n"

/-- Two sources that differ in blanks, comments and empty lines only have the same listing, and the
same program up to positions. -/
theorem program_eq_of_dump_eq_respaced :
    (check outlined).diagnostics = [] ∧ (check respaced).diagnostics = [] ∧
      (∀ t ∈ (scan outlined).tokens, t.kind.isFinite) ∧
      (∀ t ∈ (scan respaced).tokens, t.kind.isFinite) ∧
      dumpProgram (check outlined).program = dumpProgram (check respaced).program ∧
      Stmt.moveEach Token.bare (check outlined).program =
        Stmt.moveEach Token.bare (check respaced).program := by
  have hcheck : check outlined = checkUpTo 60 outlined := check_eq_checkUpTo (by decide +kernel)
  have hcheck' : check respaced = checkUpTo 70 respaced := check_eq_checkUpTo (by decide +kernel)
  have hclean : (check outlined).diagnostics = [] := by
    rw [hcheck]
    decide +kernel
  have hclean' : (check respaced).diagnostics = [] := by
    rw [hcheck']
    decide +kernel
  have hfinite : ∀ t ∈ (scan outlined).tokens, t.kind.isFinite := by
    rw [scan_eq_scanUpTo (n := 60) (by decide +kernel)]
    decide +kernel
  have hfinite' : ∀ t ∈ (scan respaced).tokens, t.kind.isFinite := by
    rw [scan_eq_scanUpTo (n := 70) (by decide +kernel)]
    decide +kernel
  have hdump : dumpProgram (check outlined).program = dumpProgram (check respaced).program := by
    rw [hcheck, hcheck']
    decide +kernel
  exact ⟨hclean, hclean', hfinite, hfinite', hdump,
    program_eq_of_dump_eq hclean hclean' hfinite hfinite' hdump⟩

end Offside
