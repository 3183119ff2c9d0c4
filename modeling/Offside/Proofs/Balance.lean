import Offside.Proofs.StmtGrammar

/-!
# What the grammar takes is balanced

Whatever phrase the grammar derives, the tokens that it takes close exactly the brackets that they
open, and the end of the input is not among them.
-/

namespace Offside

/-- The number of open brackets after some tokens. -/
def nestingOver (n : Nat) (ts : List Token) : Nat :=
  ts.foldl (fun n t => Layout.nestingAfter n t.kind) n

/-- No tokens leave the nesting as it is. -/
@[simp] theorem nestingOver_nil (n : Nat) : nestingOver n [] = n := rfl

/-- The first token acts before the others. -/
@[simp] theorem nestingOver_cons (n : Nat) (t : Token) (ts : List Token) :
    nestingOver n (t :: ts) = nestingOver (Layout.nestingAfter n t.kind) ts := rfl

/-- Of two runs of tokens the second one starts with the nesting that the first one leaves. -/
@[simp] theorem nestingOver_append (n : Nat) (ts us : List Token) :
    nestingOver n (ts ++ us) = nestingOver (nestingOver n ts) us :=
  List.foldl_append

/-- Tokens that close exactly the brackets they open, without an end of the input. -/
structure Balanced (ts : List Token) : Prop where
  nesting (n : Nat) : nestingOver n ts = n
  inside {t : Token} : t ∈ ts → t.kind ≠ .endOfInput

/-- Whether a token of this kind is neither a bracket nor the end of the input. -/
def Kind.isNeutral : Kind → Bool
  | .symbol s => !s.opens && !s.closes
  | .endOfInput => false
  | _ => true

/-- A kind that is no bracket and not the end of input leaves the nesting. -/
theorem Kind.nestingAfter_of_isNeutral {kind : Kind} (h : kind.isNeutral) (n : Nat) :
    Layout.nestingAfter n kind = n := by
  cases kind with
  | symbol s =>
    simp only [Kind.isNeutral, Bool.and_eq_true, Bool.not_eq_true'] at h
    simp [Layout.nestingAfter, h]
  | _ => rfl

/-- So does a run of such kinds. -/
theorem nestingOver_of_isNeutral {ts : List Token} (h : ∀ t ∈ ts, t.kind.isNeutral) (n : Nat) :
    nestingOver n ts = n := by
  induction ts with
  | nil => rfl
  | cons t ts ih =>
    rw [nestingOver_cons, Kind.nestingAfter_of_isNeutral (h t List.mem_cons_self),
      ih fun u hu => h u (List.mem_cons_of_mem _ hu)]

/-- The end of input is not among the kinds that may be skipped over. -/
theorem Kind.ne_endOfInput_of_isNeutral {kind : Kind} (h : kind.isNeutral) :
    kind ≠ .endOfInput := by
  rintro rfl
  cases h

/-- Balanced tokens lead from `ts` to `rest`. -/
def Passes (ts rest : List Token) : Prop := ∃ taken, ts = taken ++ rest ∧ Balanced taken

namespace Passes

variable {ts mid rest : List Token} {t : Token} {kind : Kind}

/-- Nothing is passed. -/
theorem refl (ts : List Token) : Passes ts ts := ⟨[], rfl, fun _ => rfl, by simp⟩

/-- What is passed in two goes is passed in one. -/
theorem trans (h : Passes ts mid) (h' : Passes mid rest) : Passes ts rest := by
  obtain ⟨p, rfl, hp⟩ := h
  obtain ⟨q, rfl, hq⟩ := h'
  refine ⟨p ++ q, (List.append_assoc p q rest).symm, fun n => ?_, fun ht => ?_⟩
  · rw [nestingOver_append, hp.nesting, hq.nesting]
  · exact (List.mem_append.mp ht).elim hp.inside hq.inside

/-- A token that is no bracket, in front of balanced ones. -/
theorem neutral (h : t.kind.isNeutral) (hts : Passes ts rest) : Passes (t :: ts) rest := by
  obtain ⟨p, rfl, hp⟩ := hts
  refine ⟨t :: p, rfl, fun n => ?_, fun hu => ?_⟩
  · rw [nestingOver_cons, Kind.nestingAfter_of_isNeutral h, hp.nesting]
  · rcases List.mem_cons.mp hu with rfl | hu
    · exact Kind.ne_endOfInput_of_isNeutral h
    · exact hp.inside hu

/-- One more neutral token in front is passed as well. -/
theorem step (hkind : t.kind = kind) (h : kind.isNeutral) (hts : Passes ts rest) :
    Passes (t :: ts) rest :=
  .neutral (by rw [hkind]; exact h) hts

/-- Balanced tokens between brackets. -/
theorem enclosed {opening closing : Token} {o c : Symbol} (hopening : opening.kind = .symbol o)
    (ho : o.opens) (hts : Passes ts (closing :: rest)) (hclosing : closing.kind = .symbol c)
    (hc : c.closes) : Passes (opening :: ts) rest := by
  obtain ⟨p, rfl, hp⟩ := hts
  have hnotOpens : c.opens = false := by cases c <;> first | rfl | cases hc
  refine ⟨opening :: (p ++ [closing]), by simp, fun n => ?_, fun hu => ?_⟩
  · simp [hopening, hclosing, hp.nesting, Layout.nestingAfter, ho, hc, hnotOpens]
  · rcases List.mem_cons.mp hu with rfl | hu
    · simp [hopening]
    rcases List.mem_append.mp hu with hu | hu
    · exact hp.inside hu
    · rw [List.mem_singleton.mp hu]
      simp [hclosing]

/-- Line ends are neutral. -/
theorem dropNewlines (h : Passes ts rest) : Passes ts (dropNewlines rest) := by
  refine h.trans ?_
  clear h
  induction rest with
  | nil => exact refl []
  | cons t rest ih =>
    by_cases hkind : t.kind = .newline
    · rw [dropNewlines_newline hkind]
      exact .step hkind rfl ih
    · rw [dropNewlines_of_not_leads (by simpa using hkind)]
      exact refl _

/-- A reader that passes everything was given balanced tokens. -/
theorem balanced (h : Passes ts []) : Balanced ts := by
  obtain ⟨p, rfl, hp⟩ := h
  simpa using hp

end Passes

/-- No operator is a bracket. -/
theorem Expr.isNeutral_of_mem_operators {i : Nat} {level : Level} (h : levels[i]? = some level)
    {kind : Kind} (hkind : kind ∈ level.operators) : kind.isNeutral := by
  have hall : levels.all fun level => level.operators.all Kind.isNeutral := rfl
  have hlevel := List.all_eq_true.mp hall level (List.mem_of_getElem? h)
  exact List.all_eq_true.mp hlevel kind hkind

/-- An expression is balanced, by induction on its derivation: brackets come in pairs only. -/
theorem Expr.Derives.passes {phrase : Phrase} {ts rest : List Token}
    (h : Derives phrase ts rest) : Passes ts rest := by
  induction h with
  | operation _ _ ih => exact ih
  | assign _ hsign _ ih ih' => exact ih.trans (.step hsign rfl ih')
  | level _ _ _ ih ih' => exact ih.trans ih'
  | tightest _ _ ih => exact ih
  | chainEnd _ _ => exact .refl _
  | chainStep hlevel hkind _ _ ih ih' =>
    exact .neutral (isNeutral_of_mem_operators hlevel hkind) (ih.trans ih')
  | @sign operator _ _ _ hkind _ ih =>
    have hall : prefixOperators.all Kind.isNeutral := rfl
    exact .neutral (List.all_eq_true.mp hall _ hkind) ih
  | unsigned _ ih => exact ih
  | base _ _ ih => exact ih
  | raise _ hkind _ ih ih' => exact ih.trans (.step hkind rfl ih')
  | @literal t _ _ hvalue =>
    refine .neutral ?_ (.refl _)
    cases hkind : t.kind with
    | symbol s => simp [hkind, Kind.literal?] at hvalue
    | endOfInput => simp [hkind, Kind.literal?] at hvalue
    | _ => rfl
  | grouping hopening _ hclosing ih => exact .enclosed hopening rfl ih hclosing rfl
  | list hopening _ hclosing ih => exact .enclosed hopening rfl ih hclosing rfl
  | «variable» hname _ _ => exact .step hname rfl (.refl _)
  | element hname hopening _ hclosing ih =>
    exact .step hname rfl (.enclosed hopening rfl ih hclosing rfl)
  | slice hname hopening _ hcolon _ hclosing ih ih' =>
    exact .step hname rfl (.enclosed hopening rfl (ih.trans (.step hcolon rfl ih')) hclosing rfl)
  | stride hname hopening _ hcolon _ hcolon' _ hclosing ih ih' ih'' =>
    have hinside := ih.trans (.step hcolon rfl (ih'.trans (.step hcolon' rfl ih'')))
    exact .step hname rfl (.enclosed hopening rfl hinside hclosing rfl)
  | call hname hopening _ hclosing ih =>
    exact .step hname rfl (.enclosed hopening rfl ih hclosing rfl)
  | noItems _ => exact .refl _
  | items _ _ _ ih ih' => exact ih.trans ih'
  | noMore _ => exact .refl _
  | more hcomma _ _ ih ih' => exact .step hcomma rfl (ih.trans ih')

namespace Stmt

/-- The bounds of a range stand between their own parentheses. -/
theorem DerivesRange.passes {start step : Option Expr} {stop : Expr} {ts rest : List Token}
    (h : DerivesRange start stop step ts rest) : Passes ts rest := by
  cases h with
  | stop hopening h hclosing => exact .enclosed hopening rfl h.passes hclosing rfl
  | start hopening h hcomma h' hclosing =>
    exact .enclosed hopening rfl (h.passes.trans (.step hcomma rfl h'.passes)) hclosing rfl
  | step hopening h hcomma h' hcomma' h'' hclosing =>
    have hinside := h.passes.trans
      (.step hcomma rfl (h'.passes.trans (.step hcomma' rfl h''.passes)))
    exact .enclosed hopening rfl hinside hclosing rfl

/-- Names and the commas between them are no brackets. -/
theorem DerivesNames.passes {names ts rest : List Token} (h : DerivesNames names ts rest) :
    Passes ts rest := by
  induction h with
  | nil _ => exact .refl _
  | cons hcomma hname _ ih => exact .step hcomma rfl (.step hname rfl ih)

/-- So parameters stand between parentheses, with nothing inside that is a bracket. -/
theorem DerivesParameters.passes {parameters ts rest : List Token}
    (h : DerivesParameters parameters ts rest) : Passes ts rest := by
  cases h with
  | none hopening hclosing => exact .enclosed hopening rfl (.refl _) hclosing rfl
  | some hopening hname h hclosing =>
    exact .enclosed hopening rfl (.step hname rfl h.passes) hclosing rfl

/-- Statements are balanced, since their expressions, parameters and bounds are. -/
theorem Derives.passes {phrase : Phrase} {ts rest : List Token} (h : Derives phrase ts rest) :
    Passes ts rest := by
  induction h with
  | expression h _ => exact h.passes.dropNewlines
  | assign hname hsign h => exact .step hname rfl (.step hsign rfl h.passes.dropNewlines)
  | print hkeyword hopening h hclosing =>
    exact .step hkeyword rfl (.dropNewlines (.enclosed hopening rfl h.passes hclosing rfl))
  | returnNothing hkeyword _ => exact .step hkeyword rfl (.dropNewlines (.refl _))
  | returnValue hkeyword h => exact .step hkeyword rfl h.passes.dropNewlines
  | nested _ _ ih => exact ih
  | branch hkeyword h _ _ ih ih' => exact .step hkeyword rfl (h.passes.trans (ih.trans ih'))
  | loop hkeyword h _ ih => exact .step hkeyword rfl (h.passes.trans ih)
  | forRange hkeyword hname hin hrange h _ ih =>
    exact .step hkeyword rfl
      (.step hname rfl (.step hin rfl (.step hrange rfl (h.passes.trans ih))))
  | forEach hkeyword hname hin h _ ih =>
    exact .step hkeyword rfl (.step hname rfl (.step hin rfl (h.passes.trans ih)))
  | define hkeyword hname h _ ih =>
    exact .step hkeyword rfl (.step hname rfl (h.passes.trans ih))
  | emptyLine hnewline _ ih => exact .step hnewline rfl ih
  | finish _ => exact .refl _
  | next _ _ ih ih' => exact ih.trans ih'
  | skip hnewline _ ih => exact .step hnewline rfl ih
  | block hopening _ hclosing ih =>
    exact .step hopening rfl (ih.trans (.step hclosing rfl (.refl _)))
  | body hcolon hnewline _ ih => exact .step hcolon rfl (.step hnewline rfl ih)
  | nothing _ _ => exact .refl _
  | another hkeyword h _ _ ih ih' => exact .step hkeyword rfl (h.passes.trans (ih.trans ih'))
  | last hkeyword _ ih => exact .step hkeyword rfl ih

/-- A program that was read as a whole is balanced. -/
theorem Derives.balanced {phrase : Phrase} {ts : List Token} (h : Derives phrase ts []) :
    Balanced ts :=
  h.passes.balanced

end Stmt

end Offside
