import Mathlib.Data.List.Forall2
import Offside.Proofs.Carrying

/-!
# One program behind another

The tokens of two programs one behind the other are not just the tokens of the two. What the first
program leaves indented is closed in front of the second one, behind the ends of lines with which
the second one starts. The grammar derives the two programs one after the other all the same, if the
tokens of the first one end with the end of a line.
-/

namespace Offside

/-- Dedents on either side. -/
def BothDedents (ds ds' : List Token) : Prop :=
  List.Forall₂ (fun d d' => d.kind = .dedent ∧ d'.kind = .dedent) ds ds'

/-- Two runs of dedents of one length correspond. -/
theorem BothDedents.of_length {ds ds' : List Token} (hlength : ds'.length = ds.length)
    (hds : ∀ d ∈ ds, d.kind = .dedent) (hds' : ∀ d ∈ ds', d.kind = .dedent) :
    BothDedents ds ds' := by
  induction ds generalizing ds' with
  | nil =>
    rw [List.length_eq_zero_iff.mp hlength]
    exact .nil
  | cons d ds ih =>
    cases ds' with
    | nil => cases hlength
    | cons d' ds' =>
      rw [List.forall_mem_cons] at hds hds'
      exact .cons ⟨hds.1, hds'.1⟩ (ih (Nat.succ.inj hlength) hds.2 hds'.2)

/-- Tokens that are ends of lines. -/
def AreNewlines (ns : List Token) : Prop := ∀ n ∈ ns, n.kind = .newline

/-- Leading newlines are dropped one and all. -/
theorem dropNewlines_append {ns : List Token} (h : AreNewlines ns) (ts : List Token) :
    dropNewlines (ns ++ ts) = dropNewlines ts := by
  induction ns with
  | nil => rfl
  | cons n ns ih =>
    rw [List.cons_append, dropNewlines_newline (h n List.mem_cons_self),
      ih fun n hn => h n (List.mem_cons_of_mem _ hn)]

/-- A token stream with dedents at its end, and the same tokens with ends of lines in front of the
dedents and a tail behind them. The flag tells whether a statement may start here. -/
inductive Joined (tail : List Token) : Bool → List Token → List Token → Prop
  | newline {fresh : Bool} {t : Token} {ts us : List Token} : t.kind = .newline →
    Joined tail true ts us → Joined tail fresh (t :: ts) (t :: us)
  | token {fresh : Bool} {t : Token} {ts us : List Token} : t.kind ≠ .newline →
    Joined tail false ts us → Joined tail fresh (t :: ts) (t :: us)
  | atEnd {ds ds' ns : List Token} : AreNewlines ns → BothDedents ds ds' →
    Joined tail true ds (ns ++ (ds' ++ tail))

namespace Joined

variable {tail ts us ds ds' ns : List Token} {t : Token}

/-- What is joined inside a line is joined at the start of one too. -/
theorem weaken (h : Joined tail false ts us) : Joined tail true ts us := by
  cases h with
  | newline hkind h => exact .newline hkind h
  | token hkind h => exact .token hkind h

/-- Inside a line both streams show the same next token. -/
theorem next (h : Joined tail false ts us) (p : Kind → Bool) : leads p us = leads p ts := by
  cases h with
  | newline _ _ => rfl
  | token _ _ => rfl

/-- A token that is no newline is taken from both. -/
theorem take (h : Joined tail false (t :: ts) us) (hkind : t.kind ≠ .newline) :
    ∃ vs, us = t :: vs ∧ Joined tail false ts vs := by
  cases h with
  | newline hnewline _ => exact absurd hnewline hkind
  | token _ h => exact ⟨_, rfl, h⟩

/-- A newline is taken from both, and a line starts. -/
theorem line (h : Joined tail false (t :: ts) us) (hkind : t.kind = .newline) :
    ∃ vs, us = t :: vs ∧ Joined tail true ts vs := by
  cases h with
  | newline _ h => exact ⟨_, rfl, h⟩
  | token hplain _ => exact absurd hkind hplain

/-- In front of a token that is no dedent, the start of a line is joined as its inside is. -/
theorem start (h : Joined tail true (t :: ts) us) (hkind : t.kind ≠ .dedent) :
    Joined tail false (t :: ts) us := by
  cases h with
  | newline hnewline h => exact .newline hnewline h
  | token hplain h => exact .token hplain h
  | atEnd _ hds =>
    cases hds with
    | cons hd _ => exact absurd hd.1 hkind

/-- At the closing dedents the second stream goes on with the tail. -/
theorem atDedents (h : BothDedents ds ds') : Joined tail true ds (ds' ++ tail) := by
  have hnone : AreNewlines [] := by simp [AreNewlines]
  exact .atEnd hnone h

/-- In front of dedents and a tail no end of a line remains. -/
theorem drop_atEnd (htail : leads (· == .newline) tail = false) (hns : AreNewlines ns)
    (hds : BothDedents ds ds') :
    dropNewlines ds = ds ∧ dropNewlines (ns ++ (ds' ++ tail)) = ds' ++ tail := by
  rw [dropNewlines_append hns]
  constructor
  · apply dropNewlines_of_not_leads
    cases hds with
    | nil => rfl
    | cons hd _ => simp [hd.1]
  · apply dropNewlines_of_not_leads
    cases hds with
    | nil => exact htail
    | cons hd _ => simp [hd.2]

/-- Newlines may be dropped from both streams. -/
theorem drop (htail : leads (· == .newline) tail = false) (h : Joined tail true ts us) :
    Joined tail true (dropNewlines ts) (dropNewlines us) := by
  induction ts generalizing us with
  | nil =>
    cases h with
    | atEnd hns hds =>
      rw [(drop_atEnd htail hns hds).2]
      exact .atDedents hds
  | cons t ts ih =>
    cases h with
    | newline hkind h =>
      rw [dropNewlines_newline hkind, dropNewlines_newline hkind]
      exact ih h
    | @token _ _ _ us hkind h =>
      have hplain (ts : List Token) : leads (· == .newline) (t :: ts) = false := by
        simpa using hkind
      rw [dropNewlines_of_not_leads (hplain ts), dropNewlines_of_not_leads (hplain us)]
      exact .token hkind h
    | atEnd hns hds =>
      rw [(drop_atEnd htail hns hds).1, (drop_atEnd htail hns hds).2]
      exact .atDedents hds

/-- A dedent that closes a block is met in both streams. -/
theorem close (htail : leads (· == .newline) tail = false) (h : Joined tail true (t :: ts) us)
    (hkind : t.kind = .dedent) :
    ∃ t' vs, dropNewlines us = t' :: vs ∧ t'.kind = .dedent ∧ Joined tail true ts vs := by
  cases h with
  | newline hnewline _ => simp [hkind] at hnewline
  | token _ h => exact ⟨t, _, dropNewlines_of_not_leads (by simp [hkind]), hkind, h.weaken⟩
  | atEnd hns hds =>
    rw [(drop_atEnd htail hns hds).2]
    cases hds with
    | cons hd hds =>
      exact ⟨_, _, rfl, hd.2, .atDedents hds⟩

/-- At the end there is no token of a kind that the tail cannot start with. -/
theorem leads_atEnd {p : Kind → Bool} (htail : leads p tail = false) (hnewline : p .newline = false)
    (hdedent : p .dedent = false) (hns : AreNewlines ns) (hds : BothDedents ds ds') :
    leads p (ns ++ (ds' ++ tail)) = leads p ds := by
  have hleft : leads p ds = false := by
    cases hds with
    | nil => rfl
    | cons hd _ => simp [hd.1, hdedent]
  rw [hleft]
  cases ns with
  | cons n ns => simp [hns n List.mem_cons_self, hnewline]
  | nil =>
    cases hds with
    | nil => exact htail
    | cons hd _ => simp [hd.2, hdedent]

/-- At the start of a line both streams show the same clause word. -/
theorem clause {p : Kind → Bool} (htail : leads p tail = false) (hnewline : p .newline = false)
    (hdedent : p .dedent = false) (h : Joined tail true ts us) : leads p us = leads p ts := by
  cases h with
  | newline _ _ => rfl
  | token _ _ => rfl
  | atEnd hns hds => exact leads_atEnd htail hnewline hdedent hns hds

/-- Where the first stream ends, the second has the tail left. -/
theorem finish (htail : leads (· == .newline) tail = false) (h : Joined tail true [] us) :
    dropNewlines us = tail := by
  cases h with
  | atEnd hns hds =>
    rw [(drop_atEnd htail hns hds).2]
    cases hds
    rfl

/-- Tokens that end with the end of a line, in front of the dedents. -/
theorem of_line {before : List Token} (hbefore : before.getLast?.any (·.kind == .newline))
    (h : Joined tail true ds us) {fresh : Bool} :
    Joined tail fresh (before ++ ds) (before ++ us) := by
  induction before generalizing fresh with
  | nil => simp at hbefore
  | cons t before ih =>
    cases before with
    | nil => exact .newline (by simpa using hbefore) h
    | cons u before =>
      rw [List.getLast?_cons_cons] at hbefore
      by_cases hkind : t.kind = .newline
      · exact .newline hkind (ih hbefore)
      · exact .token hkind (ih hbefore)

/-- Streams that are joined go along with each other. -/
def carrier (tail : List Token) (htail : tail = [] ∨ leads Stmt.startsStmt tail) :
    Carrier id :=
  have hnot {p : Kind → Bool} (hp : ∀ kind, Stmt.startsStmt kind → p kind = false) :
      leads p tail = false := by
    rcases htail with rfl | htail
    · rfl
    · exact leads_eq_false_of hp htail
  have hnewline : leads (· == .newline) tail = false := hnot fun kind hkind => by
    rw [beq_eq_false_iff_ne]
    rintro rfl
    cases hkind
  { inLine := Joined tail false
    atLine := Joined tail true
    tail := tail
    isMove := .id
    next := fun p h => h.next p
    take := take
    line := line
    weaken := weaken
    start := start
    drop := drop hnewline
    close := close hnewline
    clause := by
      intro ts us k hk h
      refine h.clause (hnot fun kind hkind => ?_) rfl rfl
      rw [beq_eq_false_iff_ne]
      rintro rfl
      rcases hk with rfl | rfl <;> cases hkind
    finish := finish hnewline }

end Joined

namespace Stmt

variable {g : Token → Token}

/-- A program starts with a statement or there is none. -/
theorem Derives.starts_program {body : List Stmt} {ts : List Token}
    (h : Derives (.sequence body) ts []) (hts : leads (· == .newline) ts = false) :
    ts = [] ∨ leads startsStmt ts := by
  cases h with
  | emptyLine hnewline _ => simp [hnewline] at hts
  | finish _ => exact .inl rfl
  | next h _ => exact .inr h.starts

/-- A program whose last line is ended, and another one behind it. -/
theorem Derives.join (hg : IsMove g) {first second : List Stmt}
    {before ds ds' ns behind : List Token} (hfirst : Derives (.sequence first) (before ++ ds) [])
    (hsecond : Derives (.sequence second) (ns ++ behind) [])
    (hbefore : before = [] ∨ before.getLast?.any (·.kind == .newline)) (hds : BothDedents ds ds')
    (hns : AreNewlines ns) (hbehind : leads (· == .newline) behind = false) :
    Derives (.sequence (first ++ moveEach g second)) (before ++ (ns ++ (ds' ++ behind)).map g)
      [] := by
  rw [← derives_sequence_dropNewlines, dropNewlines_append hns,
    dropNewlines_of_not_leads hbehind] at hsecond
  have htail : behind.map g = [] ∨ leads startsStmt (behind.map g) := by
    rw [leads_map hg, List.map_eq_nil_iff]
    exact hsecond.starts_program hbehind
  have hns' : AreNewlines (ns.map g) := by
    intro n hn
    obtain ⟨m, hm, rfl⟩ := List.mem_map.mp hn
    rw [hg.kind, hns m hm]
  have hds' : BothDedents ds (ds'.map g) := by
    refine List.forall₂_map_right_iff.mpr (hds.imp fun d d' hd => ⟨hd.1, ?_⟩)
    rw [hg.kind, hd.2]
  -- On its own the first program closes its blocks at the end of the input, and here in front of
  -- the second one. Apart from these dedents its tokens are the same.
  have hend : Joined (behind.map g) true ds ((ns ++ (ds' ++ behind)).map g) := by
    simpa using Joined.atEnd hns' hds'
  have hjoined : Joined (behind.map g) true (before ++ ds)
      (before ++ (ns ++ (ds' ++ behind)).map g) := by
    rcases hbefore with rfl | hbefore
    · exact hend
    · exact hend.of_line hbefore
  have hcarried := hfirst.carry (R := Joined.carrier (behind.map g) htail) _ hjoined
    (moveEach g second) (hsecond.move hg)
  rwa [moveEach_id] at hcarried

end Stmt

end Offside
