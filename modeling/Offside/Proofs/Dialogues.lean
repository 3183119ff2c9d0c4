import Offside.Console.Dialogue
import Offside.Proofs.Brackets
import Offside.Proofs.Splitting

/-!
# Dialogues with an unmatched bracket

A console keeps an input in which a bracket closes nothing, and reads on. What is read later comes
behind the bracket, so the input stays as wrong as it was: no line makes an entry of it any more,
and each one is answered by the same message.
-/

namespace Offside

/-- A row is its text and its ending, and nothing is closed in the ending. -/
theorem Text.splitEnding_append (row : List Char) :
    (splitEnding row).1 ++ (splitEnding row).2 = row ∧
      ∀ d ∈ (splitEnding row).2, d ≠ ')' ∧ d ≠ ']' ∧ d ≠ '\x7d' := by
  unfold splitEnding
  split
  next body h => exact ⟨by simpa using (congrArg List.reverse h).symm, by simp⟩
  next body _ h => exact ⟨by simpa using (congrArg List.reverse h).symm, by simp⟩
  next => simp

namespace Console

/-! ## Transcripts -/

namespace Transcript

/-- Transcripts are written one behind the other. -/
theorem append_assoc (t u v : Transcript) : t ++ u ++ v = t ++ (u ++ v) :=
  congrArg₂ Transcript.mk (String.append_assoc ..) (String.append_assoc ..)

/-- Nothing said adds nothing. -/
theorem append_empty (t : Transcript) : t ++ ({} : Transcript) = t :=
  congrArg₂ Transcript.mk (String.append_empty ..) (String.append_empty ..)

end Transcript

/-! ## Turns one after the other -/

/-- Lines that are read one after the other, none of which closes the console, with all that is
said over them. -/
inductive Dialogue.Proceeds (fuel : Nat) :
    Dialogue → List (List Char) → Transcript → Dialogue → Prop
  | nil (d : Dialogue) : Proceeds fuel d [] {} d
  | cons {d d' d'' : Dialogue} {line : List Char} {lines : List (List Char)}
      {reply said : Transcript} : d.turn fuel line = some (.proceed reply d') →
      Proceeds fuel d' lines said d'' → Proceeds fuel d (line :: lines) (reply ++ said) d''

/-- A conversation goes on from where some of its lines lead. -/
theorem converse_append {fuel : Nat} {d d' : Dialogue} {lines : List (List Char)}
    {said : Transcript} (h : d.Proceeds fuel lines said d') (before : Transcript)
    (rest : List (List Char)) :
    converse fuel before d (lines ++ rest) = converse fuel (before ++ said) d' rest := by
  induction h generalizing before with
  | nil d => rw [List.nil_append, Transcript.append_empty]
  | cons hturn _ ih =>
    rw [List.cons_append, converse, hturn, ← Transcript.append_assoc, ← ih]
    rfl

/-- A dialogue is a conversation over the rows of what is typed. -/
theorem dialogue_eq (fuel : Nat) (depth : Option String) (input : String) :
    dialogue fuel depth input =
      converse fuel (opening depth).1 (opening depth).2 (Text.rows input.toList) :=
  rfl

/-! ## Text behind an unmatched bracket -/

/-- The walk over an input stops at a closing bracket or goes on behind it. -/
theorem balanceFrom_cons (inside : Inside) (offset depth : Nat) (c : Char) :
    ((c = ')' ∨ c = ']' ∨ c = '\x7d') ∧
      ∀ cs, balanceFrom inside offset depth (c :: cs) = .unmatched c offset) ∨
      ∃ inside' depth', ∀ cs, balanceFrom inside offset depth (c :: cs) =
        balanceFrom inside' (offset + c.utf8Size) depth' cs := by
  cases inside with
  | string => exact .inr ⟨_, depth, fun cs => rfl⟩
  | comment => exact .inr ⟨_, depth, fun cs => rfl⟩
  | code =>
    by_cases hquote : c = '"'
    · exact .inr ⟨.string, depth, fun cs => by simp [balanceFrom, hquote]⟩
    by_cases hhash : c = '#'
    · exact .inr ⟨.comment, depth, fun cs => by simp [balanceFrom, hhash]⟩
    by_cases hopening : c = '(' ∨ c = '[' ∨ c = '\x7b'
    · exact .inr ⟨.code, depth + 1, fun cs => balanceFrom_opening hopening offset depth⟩
    by_cases hclosing : c = ')' ∨ c = ']' ∨ c = '\x7d'
    · cases depth with
      | zero => exact .inl ⟨hclosing, fun cs => balanceFrom_unmatched hclosing offset⟩
      | succ depth => exact .inr ⟨.code, depth, fun cs => balanceFrom_closing hclosing offset depth⟩
    · have hother : c ∉ marks := by
        simp only [marks, List.mem_cons, List.not_mem_nil, or_false]
        tauto
      exact .inr ⟨.code, depth, fun cs => balanceFrom_other hother offset depth⟩

/-- The walk over an input stops inside a text, whatever stands behind it, or goes on behind it. -/
theorem balanceFrom_append (inside : Inside) (offset depth : Nat) (cs : List Char) :
    (∃ c position, ∀ ds, balanceFrom inside offset depth (cs ++ ds) = .unmatched c position) ∨
      ∃ inside' offset' depth', ∀ ds,
        balanceFrom inside offset depth (cs ++ ds) = balanceFrom inside' offset' depth' ds := by
  induction cs generalizing inside offset depth with
  | nil => exact .inr ⟨inside, offset, depth, fun ds => rfl⟩
  | cons c cs ih =>
    rcases balanceFrom_cons inside offset depth c with ⟨-, hstop⟩ | ⟨inside', depth', hnext⟩
    · exact .inl ⟨c, offset, fun ds => hstop (cs ++ ds)⟩
    · simp only [List.cons_append, hnext]
      exact ih inside' _ depth'

/-- The walk does not stop where nothing is closed. -/
theorem balanceFrom_ne_unmatched {ds : List Char} (hds : ∀ d ∈ ds, d ≠ ')' ∧ d ≠ ']' ∧ d ≠ '\x7d')
    (inside : Inside) (offset depth : Nat) (c : Char) (position : Nat) :
    balanceFrom inside offset depth ds ≠ .unmatched c position := by
  induction ds generalizing inside offset depth with
  | nil =>
    rw [balanceFrom]
    split <;> simp
  | cons d ds ih =>
    obtain ⟨hd, hds⟩ := List.forall_mem_cons.mp hds
    rcases balanceFrom_cons inside offset depth d with ⟨hclosing, -⟩ | ⟨inside', depth', hnext⟩
    · simp [hd] at hclosing
    · rw [hnext]
      exact ih hds inside' _ depth'

section

variable {c : Char} {offset : Nat} {input : List Char}

/-- Text behind a bracket that closes nothing does not change the verdict. -/
theorem judge_append (h : judge input = .unmatched c offset) (behind : List Char) :
    judge (input ++ behind) = .unmatched c offset := by
  rw [judge_eq_unmatched] at h ⊢
  rcases balanceFrom_append .code 0 0 input with
    ⟨c', offset', hstop⟩ | ⟨inside, reached, depth, hnext⟩
  · rw [← h]
    have hinput := hstop []
    rw [List.append_nil] at hinput
    exact (hstop behind).trans hinput.symm
  · have hinput := hnext []
    rw [List.append_nil] at hinput
    exact absurd (hinput.symm.trans h)
      (balanceFrom_ne_unmatched (by simp) inside reached depth c offset)

/-- The verdict is about a bracket in front of a text that closes nothing. -/
theorem judge_of_append {ending : List Char}
    (hending : ∀ d ∈ ending, d ≠ ')' ∧ d ≠ ']' ∧ d ≠ '\x7d')
    (h : judge (input ++ ending) = .unmatched c offset) : judge input = .unmatched c offset := by
  rw [judge_eq_unmatched] at h ⊢
  rcases balanceFrom_append .code 0 0 input with
    ⟨c', offset', hstop⟩ | ⟨inside, reached, depth, hnext⟩
  · have hinput := hstop []
    rw [List.append_nil] at hinput
    exact (hinput.trans (hstop ending).symm).trans h
  · exact absurd ((hnext ending).symm.trans h)
      (balanceFrom_ne_unmatched hending inside reached depth c offset)

end

/-- The input that is judged when a line has been read. -/
def accumulated (pending line : List Char) : List Char := (Text.splitEnding (pending ++ line)).1

section

variable {c : Char} {offset fuel : Nat} {d : Dialogue} {pending line : List Char}

/-- Once a bracket closes nothing, no line read later changes the verdict. -/
theorem judge_accumulated (h : judge pending = .unmatched c offset) (line : List Char) :
    judge (accumulated pending line) = .unmatched c offset := by
  obtain ⟨happend, hending⟩ := Text.splitEnding_append (pending ++ line)
  have hwhole := judge_append h line
  rw [← happend] at hwhole
  exact judge_of_append hending hwhole

/-- Nothing is run where a bracket closes nothing, and the message about it is all that is said. -/
theorem turn_of_unmatched (h : judge (accumulated d.pending line) = .unmatched c offset) :
    d.turn fuel line = some (.proceed ⟨"", unmatchedMessage c offset⟩
      { d with pending := accumulated d.pending line }) := by
  have hreading : readLine d.pending line =
      .pending (accumulated d.pending line) (unmatchedMessage c offset) := by
    unfold accumulated at h
    simp only [readLine, h]
    rfl
  rw [Dialogue.turn, hreading]

/-- A line that completes an entry has it run. -/
theorem turn_of_complete (h : judge (accumulated d.pending line) = .complete) :
    d.turn fuel line = answer fuel d.session (accumulated d.pending line) := by
  have hreading : readLine d.pending line = .entry (accumulated d.pending line) := by
    unfold accumulated at h
    simp only [readLine, h]
    rfl
  rw [Dialogue.turn, hreading]

/-- What comes of an entry that is neither blank nor a wish to leave. -/
theorem answer_of_run {session after : Session} {entry : List Char} {outcome : Outcome}
    (hblank : (Text.trim entry).isEmpty = false) (hleave : asksToLeave (Text.trim entry) = false)
    (hrun : session.run fuel (String.ofList entry) = some (outcome, after)) :
    answer fuel session entry = some (.proceed ⟨after.textFrom session.printed,
      String.join (outcome.diagnostics.map fun d => d.text ++ "\n")⟩ { session := after }) := by
  simp [answer, hblank, hleave, hrun]

/-- A message that is said a number of times. -/
def repeated (message : String) (count : Nat) : Transcript :=
  ⟨"", String.join (List.replicate count message)⟩

/-- A message in front of repetitions is one more repetition. -/
theorem repeated_succ (message : String) (count : Nat) :
    (⟨"", message⟩ : Transcript) ++ repeated message count = repeated message (count + 1) := by
  rw [repeated, repeated, List.replicate_succ, String.join_cons]
  exact congrArg (Transcript.mk · _) (String.append_empty ..)

/-- The farewell is said at the end, apart from the messages. -/
theorem repeated_farewell (message : String) (count : Nat) :
    repeated message count ++ ⟨farewell, ""⟩ =
      ⟨farewell, String.join (List.replicate count message)⟩ :=
  congrArg₂ Transcript.mk (String.empty_append ..) (String.append_empty ..)

/-- Behind an unmatched bracket every further line is answered by the same message, by induction on
the lines. -/
theorem proceeds_of_unmatched (fuel : Nat) {d : Dialogue} {line : List Char}
    (h : judge (accumulated d.pending line) = .unmatched c offset) (lines : List (List Char)) :
    ∃ pending, judge pending = .unmatched c offset ∧
      d.Proceeds fuel (line :: lines)
        (repeated (unmatchedMessage c offset) (lines.length + 1))
        { d with pending := pending } := by
  induction lines generalizing d line with
  | nil =>
    refine ⟨accumulated d.pending line, h, ?_⟩
    rw [← repeated_succ]
    exact .cons (turn_of_unmatched h) (.nil _)
  | cons next lines ih =>
    let d' : Dialogue := { d with pending := accumulated d.pending line }
    have hnext : judge (accumulated d'.pending next) = .unmatched c offset :=
      judge_accumulated h next
    obtain ⟨pending, hpending, hproceeds⟩ := ih hnext
    refine ⟨pending, hpending, ?_⟩
    rw [← repeated_succ]
    exact .cons (turn_of_unmatched h) hproceeds

end

/-- A bracket that closes nothing is the end of all that a console does. Once the lines read so far
lead to such an input, the dialogue comes to its end with one and the same message per line from
there on and with nothing but the farewell on its output, and whatever line is read on the way, the
input is judged as before and the session is still the one it was. -/
theorem dialogue_of_unmatched {fuel offset : Nat} {depth : Option String} {input : String}
    {before after : List (List Char)} {line : List Char} {said : Transcript} {d : Dialogue}
    {c : Char} (hrows : Text.rows input.toList = before ++ line :: after)
    (hbefore : (opening depth).2.Proceeds fuel before said d)
    (hline : judge (accumulated d.pending line) = .unmatched c offset) :
    dialogue fuel depth input = some ((opening depth).1 ++ said ++
      ⟨farewell, String.join (List.replicate (after.length + 1) (unmatchedMessage c offset))⟩) ∧
    ∀ middle next rest, after = middle ++ next :: rest →
      ∃ d', d.Proceeds fuel (line :: middle)
          (repeated (unmatchedMessage c offset) (middle.length + 1)) d' ∧
        d'.session = d.session ∧ judge (accumulated d'.pending next) = .unmatched c offset := by
  constructor
  · obtain ⟨pending, -, hafter⟩ := proceeds_of_unmatched fuel hline after
    have hrest := converse_append hafter ((opening depth).1 ++ said) []
    rw [List.append_nil] at hrest
    rw [dialogue_eq, hrows, converse_append hbefore, hrest, converse, Transcript.append_assoc,
      repeated_farewell]
  · intro middle next rest _
    obtain ⟨pending, hpending, hmiddle⟩ := proceeds_of_unmatched fuel hline middle
    exact ⟨_, hmiddle, rfl, judge_accumulated hpending next⟩

/-- An entry is run, then a bracket closes nothing, and a last line is lost. -/
theorem dialogue_of_unmatched_behind_entry :
    dialogue 9 none "print(\"a\")\n)\nprint(\"b\")\n" =
      some ⟨banner ++ "a\n" ++ farewell, "  - Unmatched ')' at position 0" ++
        "  - Unmatched ')' at position 0"⟩ := by
  let first := "print(\"a\")\n".toList
  let line := ")\n".toList
  let last := "print(\"b\")\n".toList
  have hrows : Text.rows "print(\"a\")\n)\nprint(\"b\")\n".toList = [first] ++ line :: [last] := by
    decide +kernel
  let source := "print(\"a\")"
  let start := (opening none).2
  have hcheck : check source = checkUpTo 30 source := check_eq_checkUpTo (by decide +kernel)
  have hend : (start.session.run 9 source).map (fun r => (r.1, r.2.textFrom 0)) =
      some (⟨.success, []⟩, "a\n") := by
    rw [Session.run_eq, hcheck]
    decide +kernel
  obtain ⟨⟨outcome, session⟩, hrun, hsaid⟩ := Option.map_eq_some_iff.mp hend
  obtain ⟨rfl, htext⟩ := Prod.mk.inj hsaid
  have hentry : accumulated start.pending first = source.toList := by decide +kernel
  have hcomplete : judge (accumulated start.pending first) = .complete := by decide +kernel
  have hturn : start.turn 9 first = some (.proceed ⟨"a\n", ""⟩ { session := session }) := by
    rw [← String.ofList_toList (s := source), ← hentry] at hrun
    rw [turn_of_complete hcomplete, answer_of_run (by decide +kernel) (by decide +kernel) hrun,
      ← htext]
    rfl
  have hjudge : judge (accumulated [] line) = .unmatched ')' 0 := by decide +kernel
  have hdialogue := (dialogue_of_unmatched hrows (.cons hturn (.nil _)) hjudge).1
  rw [hdialogue]
  decide +kernel

end Console

end Offside
