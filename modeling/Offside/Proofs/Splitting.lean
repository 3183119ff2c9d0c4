import Offside.Proofs.Contract
import Offside.Proofs.Correspondence
import Offside.Proofs.Scanning

/-!
# A source in two parts

Running a source in two parts, one after the other in a session, does what running it as a whole
does, if the first part ends with a line and the second one starts at the left margin. The program
of the whole is the program of the first part followed by that of the second one, with the tokens of
the second part moved by the size of the first. Runs of programs whose tokens have moved go along
with each other, so only positions tell the two ways apart.
-/

namespace Offside

/-! ## The program of the whole -/

/-- A source is accepted exactly if it has no lexical error and the grammar derives its program. -/
theorem check_eq_clean {source : String} {program : List Stmt} :
    check source = ⟨program, []⟩ ↔
      (scan source).errors = [] ∧ Stmt.Derives (.sequence program) (bodyOf source) [] := by
  rw [bodyOf, ← parse_eq_clean]
  simp only [check, Checked.mk.injEq, Parse.diagnostics, List.append_eq_nil_iff,
    List.map_eq_nil_iff]
  constructor
  · rintro ⟨hprogram, hscan, hparse⟩
    exact ⟨hscan, hprogram, hparse⟩
  · rintro ⟨hscan, hprogram, hparse⟩
    exact ⟨hprogram, hscan, hparse⟩

/-- A source without diagnostics checks to its program alone. -/
theorem check_eq_of_diagnostics {source : String} (h : (check source).diagnostics = []) :
    check source = ⟨(check source).program, []⟩ := by
  rw [← h]

/-- How far the tokens behind a source are moved by it. -/
abbrev shiftBehind (source : String) : Token → Token :=
  Token.shift (Text.lineBreaks source.toList) (Text.byteLength source.toList)

/-- Behind the newlines stands the first token that is none. -/
theorem leads_dropNewlines_eq (p : Kind → Bool) (ts : List Token) :
    leads p (dropNewlines ts) = (ts.find? (·.kind != .newline)).any (p ·.kind) := by
  induction ts with
  | nil => rfl
  | cons t ts ih =>
    by_cases hkind : t.kind = .newline
    · rw [dropNewlines_newline hkind, ih]
      simp [hkind]
    · rw [dropNewlines_of_not_leads (by simpa using hkind)]
      simp [hkind]

/-- The program of two sources one behind the other. -/
theorem check_append {first second : String}
    (hend : first = "" ∨ first.toList.getLast? = some '\n')
    (hfirst : (check first).diagnostics = []) (hsecond : (check second).diagnostics = [])
    (hindent : ∀ t, (scan second).tokens.find? (·.kind != .newline) = some t → t.kind ≠ .indent) :
    check (first ++ second) =
      ⟨(check first).program ++ Stmt.moveEach (shiftBehind first) (check second).program, []⟩ := by
  obtain ⟨hscan, hderives⟩ := check_eq_clean.mp (check_eq_of_diagnostics hfirst)
  obtain ⟨hscan', hderives'⟩ := check_eq_clean.mp (check_eq_of_diagnostics hsecond)
  have hend' : first.toList = [] ∨ first.toList.getLast? = some '\n' :=
    hend.imp (fun h => by rw [h]; rfl) id
  have hmargin : leads (· == .indent) (dropNewlines (scan second).tokens) = false := by
    rw [leads_dropNewlines_eq]
    cases hfind : (scan second).tokens.find? (·.kind != .newline) with
    | none => rfl
    | some t => simpa using hindent t hfind
  obtain ⟨herrors, before, ds, us, hbody, hjoined, hline, hds, hclosed⟩ :=
    scan_append hend' hscan hscan' (hderives.balanced.nesting 0) hmargin
  obtain ⟨ns, ds', behind, hsecondBody, rfl, hns, hbehind, hcount, hds'⟩ := hclosed
  rw [hbody] at hderives
  rw [hsecondBody] at hderives'
  have hdedents := BothDedents.of_length hcount hds hds'
  refine check_eq_clean.mpr ⟨herrors, ?_⟩
  rw [hjoined]
  exact hderives.join (isMove_shift _ _) hderives' hline hdedents hns hbehind

/-! ## The run of the whole -/

/-- Running a program keeps the depth, as a contract. -/
def Contract.depth : Contract where
  holds _ := True
  allows _ m m' := m'.depth = m.depth
  knows _ _ := True
  refl := rfl
  trans h h' := h'.trans h
  knows_mono _ _ := trivial
  knows_plain _ := trivial
  knows_item _ _ := trivial
  knows_list _ := trivial
  knows_function _ := trivial
  knows_leave _ _ := trivial
  knows_comeBack _ _ := trivial
  lookup _ _ := trivial
  assign _ _ _ := ⟨trivial, rfl⟩
  issue _ _ _ := ⟨trivial, rfl⟩
  print _ _ _ _ := ⟨trivial, rfl⟩
  enter _ _ _ := trivial
  leave _ _ h := ⟨trivial, h⟩
  call _ _ := trivial
  comeBack _ _ _ _ _ _ h := ⟨trivial, congrArg (· - 1) h⟩

/-- A program leaves the call depth as it found it. -/
theorem depth_runProgram (fuel : Nat) (program : List Stmt) (m : Machine) :
    (Eval.stateAfter (runProgram fuel program m)).depth = m.depth :=
  ((Contract.yields_untilReturn program
    ((Contract.depth.ofParts fuel).exec Machine.globalFrame)).result trivial trivial).2

/-- A program that ends normally hands its machine to what follows. -/
theorem runProgram_append {fuel : Nat} {first second : List Stmt} {m m' : Machine}
    (h : runProgram fuel first m = .ok .next m') :
    runProgram fuel (first ++ second) m = runProgram fuel second m' := by
  unfold runProgram at h ⊢
  induction first generalizing m with
  | nil =>
    cases h
    rfl
  | cons stmt first ih =>
    simp only [List.cons_append, Eval.untilReturn, bind, EStateM.bind] at h ⊢
    cases hexec : Stmt.exec fuel Machine.globalFrame stmt m with
    | error e m₁ =>
      rw [hexec] at h
      cases h
    | ok flow m₁ =>
      rw [hexec] at h
      cases flow with
      | next => exact ih h
      | returned v => cases h

/-- How runs may differ whose tokens have moved: frames and identities stand for themselves, and
tokens are where they were or moved by a number of lines and bytes. -/
def Correspondence.shifted (lines bytes : Nat) : Correspondence where
  frames := .same
  identities := .same
  moves g := g = id ∨ g = Token.shift lines bytes
  isMove := by
    rintro g (rfl | rfl)
    · exact .id
    · exact isMove_shift lines bytes
  global := Renumbering.same_rel _

/-- The identical renumbering relates equal numbers. -/
theorem Renumbering.same_rel_iff {i i' : Nat} : same.Rel i i' ↔ i = i' := by
  constructor
  · rintro (⟨rfl, -⟩ | ⟨k, rfl, rfl⟩)
    · rfl
    · rfl
  · rintro rfl
    exact same_rel i

section

variable {lines bytes : Nat}

mutual

/-- A value is like itself under a shift of tokens. -/
theorem Value.alike_shifted_self : ∀ v : Value,
    v.Alike (Correspondence.shifted lines bytes).likeness v
  | .number x => .number x
  | .string contents => .string contents
  | .boolean b => .boolean b
  | .none => .none
  | .list i items => .list (Renumbering.same_rel i) (Value.alike_shifted_each items)
  | .function i definition => by
    let L := (Correspondence.shifted lines bytes).likeness
    have halike : Value.Alike L (.function i definition) (.function i (definition.move id)) :=
      .function definition (Renumbering.same_rel i) (.inl rfl)
    rwa [Function.move_id] at halike

/-- So is each item of a list. -/
theorem Value.alike_shifted_each : ∀ items : List Value,
    List.Forall₂ (Value.Alike (Correspondence.shifted lines bytes).likeness) items items
  | [] => .nil
  | v :: items => .cons (Value.alike_shifted_self v) (Value.alike_shifted_each items)

end

/-- Every state corresponds to itself. -/
theorem Correspondence.shifted_refl (m : Machine) :
    (Correspondence.shifted lines bytes).OfMachines m m where
  scopes :=
    { size := ⟨m.scopes.size, (Nat.zero_add _).symm, (Nat.zero_add _).symm⟩
      parent := by
        intro f f' hf
        obtain rfl := Renumbering.same_rel_iff.mp hf
        cases m.scopes.parent f with
        | none => exact .none
        | some outer => exact .some (Renumbering.same_rel outer)
      bindings := by
        intro f f' hf
        obtain rfl := Renumbering.same_rel_iff.mp hf
        exact List.forall₂_same.mpr fun entry _ => ⟨rfl, entry.2.alike_shifted_self⟩ }
  sink := rfl
  depth := rfl
  depthLimit := rfl
  identity := ⟨m.nextIdentity, (Nat.zero_add _).symm, (Nat.zero_add _).symm⟩

end

/-- A program behind another one runs as it runs on its own after the other one. -/
theorem related_append (lines bytes : Nat) {fuel₁ : Nat} (fuel₂ : Nat) {first : List Stmt}
    (second : List Stmt) {m m₁ : Machine} (h : runProgram fuel₁ first m = .ok .next m₁) :
    (Correspondence.shifted lines bytes).simulation.Related
      (Correspondence.shifted lines bytes).simulation.Flows (runProgram fuel₂ second m₁)
      (runProgram (max fuel₁ fuel₂)
        (first ++ Stmt.moveEach (Token.shift lines bytes) second) m) := by
  let S := (Correspondence.shifted lines bytes).simulation
  have hfirst := Simulation.matches_body (S.matchesParts (Nat.le_max_left fuel₁ fuel₂)) S.global
    (g := id) (.inl rfl) first m m (Correspondence.shifted_refl m)
  have hsecond := Simulation.matches_body (S.matchesParts (Nat.le_max_right fuel₁ fuel₂)) S.global
    (g := Token.shift lines bytes) (.inr rfl) second
  change S.Related S.Flows (runProgram fuel₁ first m)
    (runProgram (max fuel₁ fuel₂) (Stmt.moveEach id first) m) at hfirst
  -- The first part ends as before with more fuel, and its tokens have not moved.
  rw [h, Stmt.moveEach_id] at hfirst
  generalize hrun : runProgram (max fuel₁ fuel₂) first m = r at hfirst
  cases hfirst with
  | ok hm hflow =>
    cases hflow
    rw [runProgram_append hrun]
    exact hsecond _ _ hm

/-- Reported problems that differ in their position only. -/
def Diagnostic.Alike (d d' : Diagnostic) : Prop :=
  d.stage = d'.stage ∧ d.location = d'.location ∧ d.message = d'.message

/-- Reports that differ in positions only. -/
structure Outcome.Alike (o o' : Outcome) : Prop where
  status : o.status = o'.status
  diagnostics : List.Forall₂ Diagnostic.Alike o.diagnostics o'.diagnostics

/-- Errors with the same fault, blamed on a token that has moved, are worded alike. -/
theorem RuntimeError.alike_diagnostic {e e' : RuntimeError} {g : Token → Token} (hg : IsMove g)
    (hfault : e'.fault = e.fault) (htoken : e'.token = g e.token) :
    e.diagnostic.Alike e'.diagnostic := by
  obtain ⟨fault, token⟩ := e
  obtain ⟨fault', token'⟩ := e'
  cases hfault
  cases htoken
  refine ⟨rfl, ?_, ?_⟩
  · simp only [RuntimeError.diagnostic, Diagnostic.atToken, Token.location, hg.kind, hg.lexeme]
  · simp only [RuntimeError.diagnostic, Diagnostic.atToken, RuntimeError.message, hg.lexeme]

/-- What a session reports and keeps when corresponding runs end. -/
theorem Session.conclude_alike {C : Correspondence} {r r' : EStateM.Result Halt Machine Flow}
    (h : C.simulation.Related C.simulation.Flows r r') {outcome : Outcome} {s : Session}
    (hr : Session.conclude r = some (outcome, s)) :
    ∃ outcome' s', Session.conclude r' = some (outcome', s') ∧ outcome.Alike outcome' ∧
      s.machine.sink = s'.machine.sink ∧ s.globals.Alike C.likeness s'.globals := by
  cases h with
  | ok hm _ =>
    cases hr
    exact ⟨_, _, rfl, ⟨rfl, .nil⟩, hm.sink, hm.scopes.bindings C.global⟩
  | failed hm he =>
    cases hr
    obtain ⟨hfault, g, hg, htoken⟩ := he
    have hdiagnostic := RuntimeError.alike_diagnostic (C.isMove hg) hfault htoken
    exact ⟨_, _, rfl, ⟨rfl, .cons hdiagnostic .nil⟩, hm.sink, hm.scopes.bindings C.global⟩
  | excused hhalt =>
    cases hhalt
    cases hr

/-- A source without diagnostics is run as its program. -/
theorem Session.run_of_clean {source : String} (h : (check source).diagnostics = []) (fuel : Nat)
    (s : Session) :
    s.run fuel source = Session.conclude (runProgram fuel (check source).program s.start) := by
  rw [Session.run_eq, h]
  rfl

/-- A program that runs to its end leaves the session as the next one starts. -/
theorem Session.runProgram_of_success {fuel : Nat} {program : List Stmt} {s s' : Session}
    (h : Session.conclude (runProgram fuel program s.start) = some (⟨.success, []⟩, s'))
    (hreturn : ∀ v m, runProgram fuel program s.start ≠ .ok (.returned v) m) :
    runProgram fuel program s.start = .ok .next s'.start := by
  have hdepth := depth_runProgram fuel program s.start
  generalize runProgram fuel program s.start = r at h hreturn hdepth
  rcases r with ⟨flow, m⟩ | ⟨_ | _, m⟩
  · cases h
    cases flow with
    | returned v => exact absurd rfl (hreturn v m)
    | next =>
      -- A session starts every program at depth zero, so the depth must not be left changed.
      have hzero : m.depth = 0 := hdepth
      rw [Session.start, ← hzero]
  · cases h
  · cases h

/-- Splitting a source over two runs of a session changes nothing but positions: if the first part
ends with a line, both parts are accepted on their own, the second one starts at the left margin and
the first one runs to its end, then running the whole ends as running the second part after the
first one does. -/
theorem run_split {s s₁ s₂ : Session} {first second : String} {fuel₁ fuel₂ : Nat}
    {outcome : Outcome} (hend : first = "" ∨ first.toList.getLast? = some '\n')
    (hfirst : (check first).diagnostics = []) (hsecond : (check second).diagnostics = [])
    (hindent : ∀ t, (scan second).tokens.find? (·.kind != .newline) = some t → t.kind ≠ .indent)
    (hrun : s.run fuel₁ first = some (⟨.success, []⟩, s₁))
    (hreturn : ∀ v m, runProgram fuel₁ (check first).program s.start ≠ .ok (.returned v) m)
    (hrun' : s₁.run fuel₂ second = some (outcome, s₂)) :
    let shifted :=
      Correspondence.shifted (Text.lineBreaks first.toList) (Text.byteLength first.toList)
    ∃ fuel outcome' s', s.run fuel (first ++ second) = some (outcome', s') ∧
      outcome.Alike outcome' ∧ s₂.machine.sink = s'.machine.sink ∧
      s₂.globals.Alike shifted.likeness s'.globals := by
  intro shifted
  rw [Session.run_of_clean hfirst] at hrun
  rw [Session.run_of_clean hsecond] at hrun'
  have hnext := Session.runProgram_of_success hrun hreturn
  have hrelated := related_append (Text.lineBreaks first.toList) (Text.byteLength first.toList)
    fuel₂ (check second).program hnext
  obtain ⟨outcome', s', hconclude, halike⟩ := Session.conclude_alike hrelated hrun'
  have hcheck := check_append hend hfirst hsecond hindent
  refine ⟨max fuel₁ fuel₂, outcome', s', ?_, halike⟩
  rw [Session.run_of_clean (by rw [hcheck]), hcheck]
  exact hconclude

/-- A source that was scanned and parsed, by recursion on the number of its pieces. -/
def checkUpTo (n : Nat) (source : String) : Checked :=
  let scanned := scanUpTo n source
  let parsed := parse scanned.tokens
  ⟨parsed.program, scanned.errors.map LexicalError.diagnostic ++ parsed.diagnostics⟩

/-- A check is the bounded one, for a bound not below the length of the source. -/
theorem check_eq_checkUpTo {n : Nat} {source : String} (h : source.toList.length ≤ n) :
    check source = checkUpTo n source := by
  rw [check, scan_eq_scanUpTo h]
  rfl

/-- A short source without errors is run as it was parsed by recursion. -/
theorem Session.run_of_checkUpTo {n : Nat} {source : String} (hlength : source.toList.length ≤ n)
    (hclean : (checkUpTo n source).diagnostics = []) (fuel : Nat) (s : Session) :
    s.run fuel source =
      Session.conclude (runProgram fuel (checkUpTo n source).program s.start) := by
  rw [← check_eq_checkUpTo hlength] at hclean ⊢
  exact Session.run_of_clean hclean fuel s

/-- Whether the statements of a program ran to their end. -/
def endsNext : EStateM.Result Halt Machine Flow → Bool
  | .ok .next _ => true
  | _ => false

/-- A program that ends normally ends in the state after it. -/
theorem eq_next_of_endsNext {r : EStateM.Result Halt Machine Flow} (h : endsNext r) :
    r = .ok .next (Eval.stateAfter r) := by
  rcases r with ⟨_ | _, m⟩ | ⟨e, m⟩
  · rfl
  · cases h
  · cases h

/-- The first part leaves the body of a function indented, and the second one starts with an empty
line and calls the function. -/
theorem run_split_behind_body :
    ∃ fuel outcome s, (Session.new 10 {}).run fuel ("def f():\n  return f\n" ++ "\ng = f()\n") =
      some (outcome, s) ∧ outcome.status = .success ∧ s.globals.names = ["f", "g"] := by
  let first := "def f():\n  return f\n"
  let second := "\ng = f()\n"
  have hcheck : check first = checkUpTo 30 first := check_eq_checkUpTo (by decide +kernel)
  have hcheck' : check second = checkUpTo 30 second := check_eq_checkUpTo (by decide +kernel)
  have hclean : (check first).diagnostics = [] := by
    rw [hcheck]
    decide +kernel
  have hclean' : (check second).diagnostics = [] := by
    rw [hcheck']
    decide +kernel
  have hindent : (scan second).tokens.find? (·.kind != .newline) =
      some ⟨.identifier, "g", 2, ⟨1, 2⟩⟩ := by
    rw [scan_eq_scanUpTo (n := 30) (by decide +kernel)]
    decide +kernel
  let start := (Session.new 10 {}).start
  let middle := Eval.stateAfter (runProgram 9 (check first).program start)
  have hfirst : endsNext (runProgram 9 (check first).program start) := by
    rw [hcheck]
    decide +kernel
  have hsecond : endsNext (runProgram 9 (check second).program (Session.mk middle).start) := by
    simp only [middle, hcheck, hcheck']
    decide +kernel
  have hnext := eq_next_of_endsNext hfirst
  have hnext' := eq_next_of_endsNext hsecond
  have hrun : (Session.new 10 {}).run 9 first = some (⟨.success, []⟩, ⟨middle⟩) := by
    rw [Session.run_of_clean hclean, hnext]
    rfl
  have hreturn (v : Value) (m : Machine) :
      runProgram 9 (check first).program start ≠ .ok (.returned v) m := by
    rw [hnext]
    simp
  have hrun' := Session.run_of_clean hclean' 9 ⟨middle⟩
  rw [hnext'] at hrun'
  obtain ⟨fuel, outcome, s, hwhole, halike, -, hglobals⟩ :=
    run_split (.inr (by decide +kernel)) hclean hclean'
      (by intro t ht; rw [hindent] at ht; cases ht; simp) hrun hreturn hrun'
  refine ⟨fuel, outcome, s, hwhole, halike.status.symm, ?_⟩
  rw [← Correspondence.names_eq hglobals]
  simp only [middle, hcheck, hcheck']
  decide +kernel

end Offside
