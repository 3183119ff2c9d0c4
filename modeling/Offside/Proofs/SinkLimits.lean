import Offside.Proofs.Endings
import Offside.Proofs.Leeway
import Offside.Proofs.Splitting

/-!
# Limited sinks

A sink with limits takes the printed lines one after the other until it refuses one. It has then
stored an initial part of what an unlimited sink would hold in the end: as many bytes as fit if the
line did not fit, and all lines up to the one that was not flushed otherwise.
-/

namespace Offside

/-- The bytes of a printed line. -/
def lineBytes (line : String) : ByteArray := (line ++ "\n").toUTF8

/-- The bytes of printed lines. -/
def printedBytes : List String → ByteArray
  | [] => .empty
  | line :: lines => lineBytes line ++ printedBytes lines

/-- The bytes of two runs of lines stand one behind the other. -/
theorem printedBytes_append (lines lines' : List String) :
    printedBytes (lines ++ lines') = printedBytes lines ++ printedBytes lines' := by
  induction lines with
  | nil => simp [printedBytes]
  | cons line lines ih => simp [printedBytes, ih, ByteArray.append_assoc]

/-- One line is printed as its own bytes. -/
theorem printedBytes_singleton (line : String) : printedBytes [line] = lineBytes line := by
  simp [printedBytes]

namespace Sink

/-- A sink that takes a number of bytes and a number of flushes, and then refuses in its words. -/
def limited (capacity flushes : Nat) (wording : Wording := {}) : Sink :=
  { capacity := some capacity, flushes := some flushes, wording }

/-- What a sink does with the bytes of a line. -/
inductive Wrote (s : Sink) (bytes : ByteArray) : Except SinkFault Unit × Sink → Prop
  | taken : s.room bytes.size = bytes.size → s.flushes ≠ some 0 →
    Wrote s bytes
      (.ok (), { s with written := s.written ++ bytes, flushes := s.flushes.map (· - 1) })
  /-- There is no room for all bytes. -/
  | full : s.room bytes.size ≠ bytes.size → Wrote s bytes
    (.error (.full s.wording.full),
      { s with written := s.written ++ bytes.extract 0 (s.room bytes.size) })
  /-- There is room, but no flush is left. -/
  | closed : s.room bytes.size = bytes.size → s.flushes = some 0 →
    Wrote s bytes (.error (.closed s.wording.closed), { s with written := s.written ++ bytes })

/-- Printing a line is a write of its bytes. -/
theorem wrote_writeLine (s : Sink) (line : String) :
    s.Wrote (lineBytes line) (s.writeLine line) := by
  rw [writeLine, ← lineBytes]
  generalize lineBytes line = bytes
  by_cases hroom : s.room bytes.size = bytes.size
  · have hwrite : s.write bytes = (.ok (), { s with written := s.written ++ bytes }) := by
      simp only [write, if_pos hroom]
    simp only [hwrite, flush]
    have htaken := Wrote.taken hroom
    have hclosed := Wrote.closed hroom
    rcases hflushes : s.flushes with _ | _ | n
    · simpa [hflushes] using htaken
    · simpa [hflushes] using hclosed
    · simpa [hflushes] using htaken
  · have hwrite : s.write bytes = (.error (.full s.wording.full),
        { s with written := s.written ++ bytes.extract 0 (s.room bytes.size) }) := by
      simp only [write, if_neg hroom]
    rw [hwrite]
    exact .full hroom

/-- A sink takes lines one after the other and refuses none. -/
inductive Takes : Sink → List String → Sink → Prop
  | nil (s : Sink) : Takes s [] s
  | cons {s t u : Sink} {line : String} {lines : List String} : s.writeLine line = (.ok (), t) →
    Takes t lines u → Takes s (line :: lines) u

/-- A sink that takes lines may take further ones. -/
theorem Takes.append {s t u : Sink} {lines lines' : List String} (h : s.Takes lines t)
    (h' : t.Takes lines' u) : s.Takes (lines ++ lines') u := by
  induction h with
  | nil s => exact h'
  | cons hline _ ih => exact .cons hline (ih h')

/-- The lines that a sink has taken are what was added to it. -/
theorem Takes.written {s t : Sink} {lines : List String} (h : s.Takes lines t) :
    t.written = s.written ++ printedBytes lines := by
  induction h with
  | nil s => simp [printedBytes]
  | @cons s t u line lines hline hlines ih =>
    have hwrote := wrote_writeLine s line
    rw [hline] at hwrote
    cases hwrote with
    | taken hroom hflushes => rw [ih, printedBytes, ByteArray.append_assoc]

/-- A sink within its limits: so many bytes fit into it in all, and so many flushes are left. -/
structure Within (bytes flushes : Nat) (wording : Wording) (s : Sink) : Prop where
  capacity_eq : s.capacity = some bytes
  size_le : s.written.size ≤ bytes
  flushes_eq : s.flushes = some flushes
  wording_eq : s.wording = wording

section

variable {bytes flushes : Nat} {wording : Wording} {s t : Sink} {line message : String}

/-- A new limited sink is within its limits. -/
theorem within_limited (bytes flushes : Nat) (wording : Wording) :
    (limited bytes flushes wording).Within bytes flushes wording :=
  ⟨rfl, Nat.zero_le _, rfl, rfl⟩

/-- The room of a limited sink is what its capacity leaves. -/
theorem Within.room_eq (hs : s.Within bytes flushes wording) (wanted : Nat) :
    s.room wanted = min wanted (bytes - s.written.size) := by
  rw [room, hs.capacity_eq]

/-- A line that is taken uses up a flush. -/
theorem Within.taken (hs : s.Within bytes flushes wording) (h : s.writeLine line = (.ok (), t)) :
    0 < flushes ∧ t.Within bytes (flushes - 1) wording := by
  have hwrote := wrote_writeLine s line
  rw [h] at hwrote
  cases hwrote with
  | taken hroom hflushes =>
    have hsize := hs.size_le
    rw [hs.room_eq] at hroom
    rw [hs.flushes_eq] at hflushes ⊢
    refine ⟨Nat.pos_of_ne_zero fun hzero => hflushes (by rw [hzero]), hs.capacity_eq, ?_, rfl,
      hs.wording_eq⟩
    simp only [ByteArray.size_append]
    omega

/-- Every line that is taken uses up a flush. -/
theorem Takes.within {lines : List String} (h : s.Takes lines t)
    (hs : s.Within bytes flushes wording) :
    lines.length ≤ flushes ∧ t.Within bytes (flushes - lines.length) wording := by
  induction h generalizing flushes with
  | nil s => exact ⟨Nat.zero_le _, hs⟩
  | cons hline _ ih =>
    obtain ⟨hpositive, hnext⟩ := hs.taken hline
    obtain ⟨hlength, hwithin⟩ := ih hnext
    rw [List.length_cons, Nat.add_comm, ← Nat.sub_sub]
    exact ⟨by omega, hwithin⟩

/-- A line that does not fit fills the sink, which says so. -/
theorem Within.written_of_full (hs : s.Within bytes flushes wording)
    (h : s.writeLine line = (.error (.full message), t)) :
    message = wording.full ∧ bytes < (s.written ++ lineBytes line).size ∧
      t.written = (s.written ++ lineBytes line).extract 0 bytes := by
  have hwrote := wrote_writeLine s line
  rw [h] at hwrote
  cases hwrote with
  | full hroom =>
    have hsize := hs.size_le
    rw [hs.room_eq] at hroom ⊢
    have hkept : s.written.extract 0 bytes = s.written := by
      rw [ByteArray.ext_iff, ByteArray.data_extract]
      exact Array.extract_eq_self_of_le hsize
    have hmin : min (lineBytes line).size (bytes - s.written.size) = bytes - s.written.size := by
      omega
    rw [ByteArray.extract_append, hkept, Nat.zero_sub, hmin, ByteArray.size_append, hs.wording_eq]
    exact ⟨rfl, by omega, rfl⟩

/-- A line whose flush is refused was stored, and used up no flush. -/
theorem Within.written_of_closed (hs : s.Within bytes flushes wording)
    (h : s.writeLine line = (.error (.closed message), t)) :
    message = wording.closed ∧ flushes = 0 ∧ t.written = s.written ++ lineBytes line := by
  have hwrote := wrote_writeLine s line
  rw [h] at hwrote
  cases hwrote with
  | closed hroom hflushes =>
    rw [hs.flushes_eq] at hflushes
    exact ⟨by rw [hs.wording_eq], by simpa using hflushes, rfl⟩

end

/-- A sink without limits takes every line. -/
theorem writeLine_unlimited {s : Sink} (hcapacity : s.capacity = none) (hflushes : s.flushes = none)
    (line : String) :
    s.writeLine line = (.ok (), { s with written := s.written ++ lineBytes line }) := by
  have hwrote := wrote_writeLine s line
  generalize s.writeLine line = result at hwrote
  cases hwrote with
  | taken _ _ => rw [hflushes, Option.map_none, ← hflushes]
  | full hroom => exact absurd (by rw [room, hcapacity]) hroom
  | closed _ hzero => simp [hflushes] at hzero

end Sink

/-! ## What a run prints -/

/-- The line that is printed at a moment. -/
def Moment.line? (x : Moment) : Option String :=
  match x.event with
  | .act (.print _ line) => some line
  | _ => none

/-- The lines that are printed in a history. -/
def printedLines (h : List Moment) : List String := h.filterMap Moment.line?

/-- The lines of two histories stand one behind the other. -/
theorem printedLines_append (h h' : List Moment) :
    printedLines (h ++ h') = printedLines h ++ printedLines h' :=
  List.filterMap_append

/-- How a history that starts with the sink `s` and its result deal with the sink: either it takes
every printed line, or it refuses the last one. -/
inductive Writes {α : Type} (s : Sink) : List Moment → EStateM.Result Halt Machine α → Prop
  | taken {h : List Moment} {r : EStateM.Result Halt Machine α} :
    s.Takes (printedLines h) (Eval.stateAfter r).sink →
    (∀ e m, r = .error (.failed e) m → ∀ cause, e.fault ≠ .output cause) → Writes s h r
  | refused {before : List Moment} {k : Nat} {n m : Machine} {keyword : Token} {line : String}
    {cause : SinkFault} : s.Takes (printedLines before) n.sink →
    n.sink.writeLine line = (.error cause, m.sink) →
    Writes s (before ++ [⟨k, n, .act (.print keyword line)⟩])
      (.error (.failed ⟨.output cause, keyword⟩) m)

namespace Writes

variable {α β : Type} {s t : Sink} {h h' : List Moment}

/-- Printed lines in front that are taken. -/
theorem prepend {r : EStateM.Result Halt Machine α} (hh : s.Takes (printedLines h) t)
    (hr : Writes t h' r) : Writes s (h ++ h') r := by
  cases hr with
  | taken hlines hfault =>
    refine .taken ?_ hfault
    rw [printedLines_append]
    exact hh.append hlines
  | refused hlines hline =>
    rw [← List.append_assoc]
    refine .refused ?_ hline
    rw [printedLines_append]
    exact hh.append hlines

/-- A last step that leaves the sink alone changes nothing about what was written. -/
theorem settled {r : EStateM.Result Halt Machine α} {change : Machine → Machine}
    (hr : Writes s h r) (hchange : ∀ m, (change m).sink = m.sink) :
    Writes s h (Eval.settled change r) := by
  cases hr with
  | @taken _ r hlines hfault =>
    refine .taken ?_ ?_
    · rw [Eval.stateAfter_settled, hchange]
      exact hlines
    · intro e m heq
      rcases r with ⟨a, n⟩ | ⟨e, n⟩
      · cases heq
      · cases heq
        exact hfault _ n rfl
  | refused hlines hline => exact .refused hlines (by rw [hline, hchange])

/-- An act writes what it prints. -/
theorem act (k : Nat) (m : Machine) (a : Act) :
    Writes m.sink [⟨k, m, .act a⟩] (a.perform m) := by
  cases a with
  | lookup f name =>
    rw [Act.perform, Eval.lookup_apply]
    split
    · exact .taken (.nil _) (by rintro _ _ ⟨⟩)
    · exact .taken (.nil _) (by rintro _ _ ⟨⟩; simp)
  | assign f name value => exact .taken (.nil _) (by rintro _ _ ⟨⟩)
  | issue => exact .taken (.nil _) (by rintro _ _ ⟨⟩)
  | print keyword line =>
    simp only [Act.perform, Eval.print]
    split
    next sink hline => exact .taken (.cons hline (.nil _)) (by rintro _ _ ⟨⟩)
    next cause sink hline =>
      rw [← List.nil_append [_]]
      exact .refused (.nil _) hline
  | fail e hfault =>
    refine .taken (.nil _) ?_
    rintro _ _ ⟨⟩ cause houtput
    rw [houtput] at hfault
    cases hfault

end Writes

/-- Every history deals with the sink in this way. -/
def Chronicle.writes : Chronicle where
  holds _ m h r := Writes m.sink h r
  done _ _ _ := .taken (.nil _) (by simp)
  exhausted _ _ := .taken (.nil _) (by simp)
  start _ _ _ _ := .taken (.nil _) (by simp)
  act := Writes.act
  append h h' := by
    cases h with
    | taken hlines _ => exact .prepend hlines h'
  stop h := by
    cases h with
    | taken hlines hfault =>
      exact .taken hlines fun e m heq => hfault e m (by cases heq; rfl)
    | refused hlines hline => exact .refused hlines hline
  block h := h.settled fun _ => rfl
  tooDeep _ _ := .taken (.nil _) (by simp)
  call {k f m name arguments function values _ _} _ _ h :=
    .prepend (h := [⟨k, m, .call f name arguments function values⟩]) (.nil _)
      (h.settled fun _ => rfl)

/-! ## Limited and unlimited runs -/

/-- The session with another sink. -/
def Session.onto (sink : Sink) (s : Session) : Session := ⟨{ s.machine with sink }⟩

/-- A sink next to an unlimited one that holds the same. -/
def Leeway.ofSink : Leeway where
  sinks s s' := s.written = s'.written ∧ s'.capacity = none ∧ s'.flushes = none
  limits := Eq
  excused fault := ∃ cause, fault = .output cause
  writeLine {s s'} line := by
    rintro ⟨hwritten, hcapacity, hflushes⟩
    rw [Sink.writeLine_unlimited hcapacity hflushes]
    have hwrote := s.wrote_writeLine line
    generalize s.writeLine line = result at hwrote
    cases hwrote with
    | taken _ _ => exact .inl ⟨rfl, by rw [hwritten], hcapacity, hflushes⟩
    | full _ => exact .inr ⟨_, rfl, _, rfl⟩
    | closed _ _ => exact .inr ⟨_, rfl, _, rfl⟩
  tooDeep h hdeep := .inl (h ▸ hdeep)
  notTooDeep h hdeep := h ▸ hdeep

/-- The same lines are printed at the same moments. -/
theorem printedLines_append_twins {L : Leeway} {h g : List Moment}
    (hh : List.Forall₂ L.TwinMoments h g) (rest : List Moment) :
    printedLines (g ++ rest) = printedLines h ++ printedLines rest := by
  induction hh with
  | nil => rfl
  | @cons x x' _ _ hx _ ih =>
    have hline : x'.line? = x.line? := by rw [Moment.line?, Moment.line?, hx.event]
    rw [List.cons_append, printedLines, printedLines, List.filterMap_cons, List.filterMap_cons,
      hline]
    split
    · exact ih
    · exact congrArg _ ih

/-- A sink without limits has none after taking lines either. -/
theorem Sink.Takes.unlimited {s t : Sink} {lines : List String} (h : s.Takes lines t)
    (hcapacity : s.capacity = none) (hflushes : s.flushes = none) :
    t.capacity = none ∧ t.flushes = none := by
  induction h with
  | nil s => exact ⟨hcapacity, hflushes⟩
  | cons hline _ ih =>
    rw [writeLine_unlimited hcapacity hflushes] at hline
    cases hline
    exact ih hcapacity hflushes

/-- An unlimited sink ends with all printed lines. -/
theorem Writes.written_of_unlimited {α : Type} {h : List Moment}
    {r : EStateM.Result Halt Machine α} (hr : Writes {} h r) :
    (Eval.stateAfter r).sink.written = printedBytes (printedLines h) := by
  cases hr with
  | taken hlines _ => simpa using hlines.written
  | refused hlines hline =>
    obtain ⟨hcapacity, hflushes⟩ := hlines.unlimited rfl rfl
    rw [Sink.writeLine_unlimited hcapacity hflushes] at hline
    cases hline

/-- The sink refuses the line printed at this moment. -/
def Moment.Refuses (x : Moment) (keyword : Token) (cause : SinkFault) : Prop :=
  ∃ line, x.event = .act (.print keyword line) ∧ (x.machine.sink.writeLine line).1 = .error cause

/-- A refused line raises the cause at its keyword. -/
theorem Moment.Refuses.raised_eq {x : Moment} {keyword : Token} {cause : SinkFault}
    (hx : x.Refuses keyword cause) : x.raised = some ⟨.output cause, keyword⟩ := by
  obtain ⟨k, m, event⟩ := x
  obtain ⟨line, hevent, hrefused⟩ := hx
  simp only at hevent hrefused
  subst hevent
  simp only [Moment.raised, Act.perform, Eval.print]
  generalize m.sink.writeLine line = result at hrefused
  obtain ⟨result, sink⟩ := result
  cases hrefused
  rfl

/-- What becomes of a run when its sink is limited. The run with the limits has the first history
and ends with the first outcome and session; the others are those of the unlimited run. -/
structure Truncated (capacity flushes : Nat) (wording : Wording) (h h' : List Moment)
    (outcome outcome' : Outcome) (s s' : Session) : Prop where
  /-- The whole output is the text of all executed prints. -/
  whole : s'.machine.sink.written = printedBytes (printedLines h')
  /-- What is stored is an initial part of the whole output. -/
  stored : ∃ rest, s'.machine.sink.written = s.machine.sink.written ++ rest
  /-- Without a refusal there is no difference. -/
  same : (∀ x ∈ h, ∀ keyword cause, ¬ x.Refuses keyword cause) →
    outcome = outcome' ∧ s.globals = s'.globals ∧
      s.machine.sink.written = s'.machine.sink.written
  /-- Nothing is executed after a refusal, and it is the only thing reported. -/
  last {before after : List Moment} {x : Moment} {keyword : Token} {cause : SinkFault} :
    h = before ++ x :: after → x.Refuses keyword cause →
      after = [] ∧ x.aftermath.Unwound s.machine ∧
        outcome = ⟨.runtimeError, [.atToken .runtime keyword
          ("Could not write output: " ++ cause.message)]⟩
  /-- If a line does not fit, as much of the output is stored as fits. -/
  full {x : Moment} {keyword : Token} {message : String} : x ∈ h →
    x.Refuses keyword (.full message) → message = wording.full ∧
      capacity < s'.machine.sink.written.size ∧
      s.machine.sink.written = s'.machine.sink.written.extract 0 capacity
  /-- If a line is not flushed, exactly the text of the first prints is stored, one more than there
  were flushes. -/
  closed {x : Moment} {keyword : Token} {message : String} : x ∈ h →
    x.Refuses keyword (.closed message) → message = wording.closed ∧
      flushes < (printedLines h').length ∧
      s.machine.sink.written = printedBytes ((printedLines h').take (flushes + 1))

/-- What a limited sink holds when it refuses a line behind others, seen from all lines that an
unlimited sink would take. -/
theorem Sink.Takes.stored_of_refused {capacity flushes : Nat} {wording : Wording} {s t : Sink}
    {lines : List String} {line : String} {cause : SinkFault}
    (h : (Sink.limited capacity flushes wording).Takes lines s)
    (hline : s.writeLine line = (.error cause, t)) (rest : List String) :
    (∃ bytes, printedBytes (lines ++ [line] ++ rest) = t.written ++ bytes) ∧
    (∀ message, cause = .full message → message = wording.full ∧
      capacity < (printedBytes (lines ++ [line] ++ rest)).size ∧
      t.written = (printedBytes (lines ++ [line] ++ rest)).extract 0 capacity) ∧
    (∀ message, cause = .closed message → message = wording.closed ∧
      flushes < (lines ++ [line] ++ rest).length ∧
      t.written = printedBytes ((lines ++ [line] ++ rest).take (flushes + 1))) := by
  obtain ⟨hlength, hwithin⟩ := h.within (Sink.within_limited capacity flushes wording)
  have hwritten : s.written ++ lineBytes line = printedBytes (lines ++ [line]) := by
    rw [h.written, printedBytes_append, printedBytes_singleton]
    simp [limited]
  rw [printedBytes_append _ rest]
  cases cause with
  | full message =>
    obtain ⟨hmessage, hsize, hstored⟩ := hwithin.written_of_full hline
    rw [hwritten] at hsize hstored
    -- The sink was filled inside the line, so that what follows the line does not matter.
    have hextract : (printedBytes (lines ++ [line]) ++ printedBytes rest).extract 0 capacity =
        t.written := by
      have hnone : capacity - (printedBytes (lines ++ [line])).size = 0 := by omega
      rw [hstored, ByteArray.extract_append, Nat.zero_sub, hnone, ByteArray.extract_same,
        ByteArray.append_empty]
    have hmore : capacity < (printedBytes (lines ++ [line]) ++ printedBytes rest).size := by
      rw [ByteArray.size_append]
      omega
    generalize printedBytes (lines ++ [line]) ++ printedBytes rest = whole at hextract hmore
    refine ⟨⟨whole.extract capacity whole.size, ?_⟩, fun _ hfull => ?_, nofun⟩
    · rw [← hextract, ← ByteArray.extract_eq_extract_append_extract capacity (Nat.zero_le _)
        (Nat.le_of_lt hmore), ByteArray.extract_zero_size]
    · cases hfull
      exact ⟨hmessage, hmore, hextract.symm⟩
  | closed message =>
    obtain ⟨hmessage, hzero, hstored⟩ := hwithin.written_of_closed hline
    rw [hwritten] at hstored
    -- Every line but the last one has used up a flush, and there are none left.
    have hcount : (lines ++ [line]).length = flushes + 1 := by
      rw [List.length_append, List.length_singleton]
      omega
    refine ⟨⟨_, by rw [hstored]⟩, nofun, fun _ hclosed => ?_⟩
    cases hclosed
    refine ⟨hmessage, ?_, ?_⟩
    · rw [List.length_append]
      omega
    · rw [hstored, ← hcount, List.take_left]

/-- A refusal is what the run fails with. -/
theorem Ends.of_refuses {α : Type} {h : List Moment} {r : EStateM.Result Halt Machine α}
    {x : Moment} {keyword : Token} {cause : SinkFault} (hends : Ends h r) (hmem : x ∈ h)
    (hx : x.Refuses keyword cause) : ∃ m, r = .error (.failed ⟨.output cause, keyword⟩) m := by
  obtain ⟨before, after, rfl⟩ := List.append_of_mem hmem
  obtain ⟨-, m, hr, -⟩ := hends.of_raised hx.raised_eq
  exact ⟨m, hr⟩

/-- A run concludes in the state its program left. -/
theorem Session.machine_of_conclude {r : EStateM.Result Halt Machine Flow} {outcome : Outcome}
    {s : Session} (h : Session.conclude r = some (outcome, s)) : s.machine = Eval.stateAfter r := by
  rcases r with ⟨flow, m⟩ | ⟨e | _, m⟩ <;> cases h <;> rfl

section

variable {capacity flushes : Nat} {wording : Wording} {h h' : List Moment}
  {outcome : Outcome} {s s' : Session}

/-- A run that meets no limit. -/
theorem Truncated.of_quiet {m m' : Machine} (hm : Leeway.ofSink.Twins m m')
    (hwhole : m'.sink.written = printedBytes (printedLines h'))
    (hquiet : ∀ x ∈ h, ∀ keyword cause, ¬ x.Refuses keyword cause) :
    Truncated capacity flushes wording h h' outcome outcome ⟨m⟩ ⟨m'⟩ where
  whole := hwhole
  stored := ⟨.empty, by rw [ByteArray.append_empty]; exact hm.sink.1.symm⟩
  same _ := ⟨rfl, congrArg (·.bindings Machine.globalFrame) hm.scopes, hm.sink.1⟩
  last hsplit hx := absurd hx (hquiet _ (by simp [hsplit]) _ _)
  full hmem hx := absurd hx (hquiet _ hmem _ _)
  closed hmem hx := absurd hx (hquiet _ hmem _ _)

/-- A run that meets a limit. -/
theorem Truncated.of_refused {before : List Moment} {k : Nat} {n m : Machine} {line : String}
    {rest : List String} {keyword : Token} {cause : SinkFault}
    (hh : printedLines h' = printedLines (before ++ [⟨k, n, .act (.print keyword line)⟩]) ++ rest)
    (hlines : (Sink.limited capacity flushes wording).Takes (printedLines before) n.sink)
    (hline : n.sink.writeLine line = (.error cause, m.sink))
    (hwhole : s'.machine.sink.written = printedBytes (printedLines h'))
    (hends : Ends (before ++ [⟨k, n, .act (.print keyword line)⟩])
      (.error (.failed ⟨.output cause, keyword⟩) m : EStateM.Result Halt Machine Flow)) :
    Truncated capacity flushes wording (before ++ [⟨k, n, .act (.print keyword line)⟩]) h'
      ⟨.runtimeError, [(⟨.output cause, keyword⟩ : RuntimeError).diagnostic]⟩ outcome ⟨m⟩ s' := by
  obtain ⟨hstored, hfull, hclosed⟩ := hlines.stored_of_refused hline rest
  rw [printedLines_append] at hh
  change _ = printedLines before ++ [line] ++ rest at hh
  rw [← hh] at hstored hfull hclosed
  rw [← hwhole] at hstored hfull
  refine ⟨hwhole, hstored, fun hquiet => ?_, fun {_ _ x keyword' cause'} hsplit hx => ?_,
    fun hmem hx => ?_, fun hmem hx => ?_⟩
  · have hrefuses : Moment.Refuses ⟨k, n, .act (.print keyword line)⟩ keyword cause :=
      ⟨line, rfl, by rw [hline]⟩
    exact absurd hrefuses (hquiet _ (by simp) _ _)
  · rw [hsplit] at hends
    obtain ⟨hnone, m', heq, hunwound⟩ := hends.of_raised hx.raised_eq
    cases heq
    exact ⟨hnone, hunwound, rfl⟩
  · obtain ⟨m', heq⟩ := hends.of_refuses hmem hx
    cases heq
    exact hfull _ rfl
  · obtain ⟨m', heq⟩ := hends.of_refuses hmem hx
    cases heq
    exact hclosed _ rfl

/-- Two runs that go along with each other, with a limited and an unlimited sink. -/
theorem Leeway.Along.truncated {r r' : EStateM.Result Halt Machine Flow}
    (halong : Leeway.ofSink.Along h r h' r') (hends : Ends h r)
    (hwrites : Writes (.limited capacity flushes wording) h r) (hwrites' : Writes {} h' r')
    (hend : Session.conclude r' = some (outcome, s')) :
    ∃ outcome' s, Session.conclude r = some (outcome', s) ∧
      Truncated capacity flushes wording h h' outcome' outcome s s' := by
  have hwhole := hwrites'.written_of_unlimited
  rw [← Session.machine_of_conclude hend] at hwhole
  cases halong with
  | ok _ hm =>
    cases hend
    refine ⟨_, _, rfl, .of_quiet hm hwhole fun x hmem keyword cause hx => ?_⟩
    obtain ⟨m, heq⟩ := hends.of_refuses hmem hx
    cases heq
  | exhausted _ => cases hend
  | failed _ hm hexcused =>
    cases hend
    refine ⟨_, _, rfl, .of_quiet hm hwhole fun x hmem keyword cause hx => ?_⟩
    obtain ⟨m, heq⟩ := hends.of_refuses hmem hx
    cases heq
    exact hexcused ⟨cause, rfl⟩
  | parted hh hstart hexcused =>
    obtain ⟨rest, rfl⟩ := hstart
    obtain ⟨cause, hfault⟩ := hexcused
    have hprinted := printedLines_append_twins hh rest
    cases hwrites with
    | taken _ hother => exact absurd hfault (hother _ _ rfl cause)
    | refused hlines hline => exact ⟨_, _, rfl, .of_refused hprinted hlines hline hwhole hends⟩

end

/-- A limited sink only truncates. If a source runs to an end with an unlimited sink, it also does
with a sink that takes a number of bytes and a number of flushes, and what is stored, reported and
left behind then is what the unlimited run says up to the first line that the sink refuses. -/
theorem run_onto_limited {fuel : Nat} {s s' : Session} {source : String} {outcome : Outcome}
    (hrun : (s.onto {}).run fuel source = some (outcome, s')) (capacity flushes : Nat)
    (wording : Wording) :
    ∃ outcome' t,
      (s.onto (.limited capacity flushes wording)).run fuel source = some (outcome', t) ∧
      Truncated capacity flushes wording
        ((s.onto (.limited capacity flushes wording)).history fuel source)
        ((s.onto {}).history fuel source) outcome' outcome t s' := by
  rw [Session.run_eq] at hrun ⊢
  rw [Session.history, Session.history]
  split at hrun
  next hclean =>
    simp only [if_pos hclean]
    have htwins :
        Leeway.ofSink.Twins (s.onto (.limited capacity flushes wording)).start (s.onto {}).start :=
      ⟨rfl, rfl, rfl, ⟨rfl, rfl, rfl⟩, rfl⟩
    have halong := Leeway.ofSink.ofProgram fuel (check source).program htwins
    have hwrites (sink : Sink) : Writes sink _ _ :=
      Chronicle.writes.ofProgram fuel (check source).program (s.onto sink).start
    exact halong.truncated (Chronicle.endings.ofProgram fuel _ _) (hwrites _) (hwrites _) hrun
  next hclean =>
    simp only [if_neg hclean]
    cases hrun
    have htwins :
        Leeway.ofSink.Twins (s.onto (.limited capacity flushes wording)).machine
          (s.onto {}).machine :=
      ⟨rfl, rfl, rfl, ⟨rfl, rfl, rfl⟩, rfl⟩
    exact ⟨_, _, rfl, .of_quiet htwins rfl (by simp)⟩

/-- Of two printed lines the second one does not fit. -/
theorem run_onto_limited_halfLine :
    ∃ s' t : Session, s'.machine.sink.written.size = 4 ∧
      ((Session.new 10 {}).onto (.limited 3 9 ⟨"sink full", "pipe closed"⟩)).run 9
          "print(\"a\")\nprint(\"b\")\n" =
        some (⟨.runtimeError, [⟨.runtime, 2, " at 'print'", "Could not write output: sink full",
          ⟨11, 16⟩⟩]⟩, t) ∧
      ∃ rest, s'.machine.sink.written = t.machine.sink.written ++ rest := by
  let source := "print(\"a\")\nprint(\"b\")\n"
  have hcheck : check source = checkUpTo 30 source := check_eq_checkUpTo (by decide +kernel)
  have hclean : (check source).diagnostics = [] := by
    rw [hcheck]
    decide +kernel
  let s := Session.new 10 {}
  let wording : Wording := ⟨"sink full", "pipe closed"⟩
  have hwhole : ((s.onto {}).run 9 source).map (fun r => r.2.machine.sink.written.size) =
      some 4 := by
    rw [Session.run_of_clean hclean, hcheck]
    decide +kernel
  have hcut : ((s.onto (.limited 3 9 wording)).run 9 source).map Prod.fst = some ⟨.runtimeError,
      [⟨.runtime, 2, " at 'print'", "Could not write output: sink full", ⟨11, 16⟩⟩]⟩ := by
    rw [Session.run_of_clean hclean, hcheck]
    decide +kernel
  obtain ⟨⟨outcome, s'⟩, hrun, hsize⟩ := Option.map_eq_some_iff.mp hwhole
  obtain ⟨outcome', t, hrun', htruncated⟩ := run_onto_limited hrun 3 9 wording
  rw [hrun', Option.map_some, Option.some.injEq] at hcut
  cases hcut
  exact ⟨s', t, hsize, hrun', htruncated.stored⟩

end Offside
