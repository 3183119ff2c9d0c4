import Offside.Proofs.Endings
import Offside.Proofs.Splitting

/-!
# The depth of calls

The machine counts the function bodies that are being executed, and a call that would make them too
many is refused. The counter is right at every moment of a run, since every call puts it back
however the body ends. Calls are refused exactly when as many bodies are active as are allowed.
-/

namespace Offside

/-- The counter of a moment in a run that starts in the state `m` with `k` active bodies. -/
structure Moment.Counted (k : Nat) (m : Machine) (x : Moment) : Prop where
  depth : x.machine.depth + k = m.depth + x.active
  limit : x.machine.depthLimit = m.depthLimit
  bounded : m.depth ≤ m.depthLimit → x.machine.depth ≤ m.depthLimit

/-- The moment at which something starts is counted, as no body has been entered since. -/
theorem Moment.Counted.start {k : Nat} {m : Machine} (event : Event) :
    Moment.Counted k m ⟨k, m, event⟩ :=
  ⟨rfl, rfl, fun h => h⟩

/-- States with the same counter and the same limit of it. -/
structure SameCounter (m m' : Machine) : Prop where
  depth : m'.depth = m.depth
  limit : m'.depthLimit = m.depthLimit

/-- The counter does not change by itself. -/
theorem SameCounter.refl (m : Machine) : SameCounter m m := ⟨rfl, rfl⟩

/-- Nor does it change over two runs that both keep it. -/
theorem SameCounter.trans {m n n' : Machine} (h : SameCounter m n) (h' : SameCounter n n') :
    SameCounter m n' :=
  ⟨h'.depth.trans h.depth, h'.limit.trans h.limit⟩

/-- Only the counter of the start matters. -/
theorem Moment.Counted.of_same {k : Nat} {m m' : Machine} {x : Moment} (hx : x.Counted k m')
    (h : SameCounter m m') : x.Counted k m := by
  obtain ⟨hdepth, hlimit, hbounded⟩ := hx
  rw [h.depth] at hdepth hbounded
  rw [h.limit] at hlimit hbounded
  exact ⟨hdepth, hlimit, hbounded⟩

/-- Acts do not touch the counter. -/
theorem Act.sameCounter (a : Act) (m : Machine) :
    SameCounter m (Eval.stateAfter (a.perform m)) := by
  cases a with
  | lookup f name =>
    rw [Act.perform, Eval.lookup_apply]
    split <;> exact .refl m
  | assign f name value => exact ⟨rfl, rfl⟩
  | issue => exact ⟨rfl, rfl⟩
  | print keyword line =>
    simp only [Act.perform, Eval.print]
    split <;> exact ⟨rfl, rfl⟩
  | fail e hfault => exact .refl m

/-- The counter is right at every moment, and is put back in the end. -/
def Chronicle.counter : Chronicle where
  holds k m h r := SameCounter m (Eval.stateAfter r) ∧ ∀ x ∈ h, x.Counted k m
  done _ m _ := ⟨.refl m, by simp⟩
  exhausted _ m := ⟨.refl m, by simp⟩
  start _ m _ _ := ⟨.refl m, by simpa using Moment.Counted.start _⟩
  act _ m a := ⟨a.sameCounter m, by simpa using Moment.Counted.start _⟩
  append := by
    intro α β k m m' a h h' r ⟨hsame, hx⟩ ⟨hsame', hx'⟩
    refine ⟨hsame.trans hsame', fun x hmem => ?_⟩
    rcases List.mem_append.mp hmem with hmem | hmem
    · exact hx x hmem
    · exact (hx' x hmem).of_same hsame
  stop h := h
  block := by
    intro k f m h r ⟨hsame, hx⟩
    have hentered : SameCounter m (m.enter f []) := ⟨rfl, rfl⟩
    rw [Eval.stateAfter_settled]
    refine ⟨?_, fun x hmem => (hx x hmem).of_same hentered⟩
    exact (hentered.trans hsame).trans ⟨rfl, rfl⟩
  tooDeep _ _ := ⟨⟨rfl, rfl⟩, by simpa using Moment.Counted.start _⟩
  call := by
    intro k f m name arguments function values h r _ hroom ⟨hsame, hx⟩
    have hinside : (m.call (Parts.bindParameters function.parameters values)).depth = m.depth + 1 :=
      rfl
    have hdepth := hsame.depth
    rw [Eval.stateAfter_settled]
    refine ⟨⟨?_, hsame.limit⟩, fun x hmem => ?_⟩
    · change (Eval.stateAfter r).depth - 1 = m.depth
      omega
    · rcases List.mem_cons.mp hmem with rfl | hmem
      · exact .start _
      · obtain ⟨hcount, hlimit, hbounded⟩ := hx x hmem
        exact ⟨by omega, hlimit, fun _ => hbounded hroom⟩

/-- Every call of a history was attempted. -/
def Chronicle.attempts : Chronicle where
  holds _ _ h _ := ∀ x ∈ h, ∀ f name arguments function values,
    x.event = .call f name arguments function values →
      Attempted f name arguments function values x.machine
  done _ _ _ := by simp
  exhausted _ _ := by simp
  start _ _ _ _ := by simp
  act _ _ _ := by simp
  append h h' x hmem := (List.mem_append.mp hmem).elim (h x) (h' x)
  stop h := h
  block h := h
  tooDeep hattempted _ := by
    simp only [List.mem_singleton, forall_eq]
    intro f name arguments function values heq
    cases heq
    exact hattempted
  call hattempted _ h := by
    simp only [List.mem_cons, forall_eq_or_imp]
    refine ⟨fun f name arguments function values heq => ?_, h⟩
    cases heq
    exact hattempted

/-! ## Refused calls -/

/-- At this moment a function is called by name, with the right number of arguments and with all of
them evaluated, while as many bodies are active as are allowed. -/
structure Moment.IsDeepCall (x : Moment) (name : Token) : Prop where
  attempted : ∃ f arguments function values, x.event = .call f name arguments function values ∧
    Attempted f name arguments function values x.machine
  full : x.machine.depthLimit ≤ x.machine.depth

/-- What the history of a run that starts in the state `m` and its result tell about calls. -/
structure CallsCounted {α : Type} (m : Machine) (history : List Moment)
    (result : EStateM.Result Halt Machine α) : Prop where
  /-- The counter is what it was, however the run ends. -/
  restored : (Eval.stateAfter result).depth = m.depth
  /-- The counter is larger than at the start by the number of bodies that the run has entered and
  not left. -/
  counted (x : Moment) : x ∈ history → x.machine.depth = m.depth + x.active
  /-- The limit is never exceeded. -/
  bounded (x : Moment) : x ∈ history → m.depth ≤ m.depthLimit → x.machine.depth ≤ m.depthLimit
  limit (x : Moment) : x ∈ history → x.machine.depthLimit = m.depthLimit
  /-- A call that would be too deep is refused, and nothing follows it: neither its body nor
  anything else. -/
  refused {before after : List Moment} {x : Moment} {name : Token} :
    history = before ++ x :: after → x.IsDeepCall name →
      after = [] ∧ ∃ m', result = .error (.failed ⟨.tooDeep, name⟩) m' ∧ x.machine.Unwound m'
  /-- Only such calls raise the error. -/
  raised {name : Token} {m' : Machine} : result = .error (.failed ⟨.tooDeep, name⟩) m' →
    ∃ before x, history = before ++ [x] ∧ x.IsDeepCall name

/-- A call at the limit fails on the spot, blamed on the called name, and changes nothing. -/
theorem Moment.IsDeepCall.raised_eq {x : Moment} {name : Token} (h : x.IsDeepCall name) :
    x.raised = some ⟨.tooDeep, name⟩ ∧ x.aftermath = x.machine := by
  obtain ⟨⟨f, arguments, function, values, hevent, -⟩, hfull⟩ := h
  simp [Moment.raised, Moment.aftermath, hevent, hfull]

/-- What the counter, the attempts and the ending say together. -/
theorem CallsCounted.of_chronicles {α : Type} {m : Machine} {history : List Moment}
    {result : EStateM.Result Halt Machine α} (hcounter : Chronicle.counter.holds 0 m history result)
    (hattempts : Chronicle.attempts.holds 0 m history result)
    (hends : Chronicle.endings.holds 0 m history result) : CallsCounted m history result where
  restored := hcounter.1.depth
  counted x hx := (hcounter.2 x hx).depth
  bounded x hx := (hcounter.2 x hx).bounded
  limit x hx := (hcounter.2 x hx).limit
  refused {before after x name} hhistory hdeep := by
    obtain ⟨hraised, haftermath⟩ := hdeep.raised_eq
    subst hhistory
    have hlast := Ends.of_raised hends hraised
    rwa [haftermath] at hlast
  raised {name m'} hresult := by
    subst hresult
    obtain ⟨before, x, rfl, hraised, -⟩ := Ends.of_failed hends
    obtain ⟨f, arguments, function, values, hevent, hfull⟩ := Moment.raised_tooDeep hraised
    have hattempted := hattempts x (by simp) f name arguments function values hevent
    exact ⟨before, x, rfl, ⟨f, arguments, function, values, hevent, hattempted⟩, hfull⟩

section

variable {f identity : Nat} {name : Token} {arguments : List Expr} {function : Function}
  {values : List Value} {m n : Machine}

/-- A call of a function with the right number of arguments is the invocation behind the evaluation
of the arguments. -/
theorem Parts.call_attempted {p : Parts}
    (hcallee : m.scopes.lookup f name.lexeme = some (.function identity function))
    (harity : arguments.length = function.parameters.length)
    (harguments : p.evalEach f arguments m = .ok values n) :
    p.call f name arguments m = p.invoke name function values n := by
  have hlookup : Eval.lookup f name m = .ok (.function identity function) m := by
    rw [Eval.lookup_apply, hcallee]
  simp only [Parts.call, bind, EStateM.bind, hlookup, if_neg (Decidable.not_not.mpr harity),
    harguments]

/-- Its history is the look-up, the history of the arguments and that of the invocation. -/
theorem Records.call_attempted {r : Records} {p : Parts} {k : Nat}
    (hcallee : m.scopes.lookup f name.lexeme = some (.function identity function))
    (harity : arguments.length = function.parameters.length)
    (harguments : p.evalEach f arguments m = .ok values n) :
    r.call p k f name arguments m =
      (⟨k, m, .act (.lookup f name)⟩ :: r.each p k f arguments m) ++
        r.invoke p k f name arguments function values n := by
  have hlookup : Eval.lookup f name m = .ok (.function identity function) m := by
    rw [Eval.lookup_apply, hcallee]
  simp only [Records.call, hlookup, following, if_neg (Decidable.not_not.mpr harity), harguments,
    List.cons_append]

/-- A call that is attempted is a moment of the history. If it is too deep, it is the last one, and
the state is the one behind the arguments. -/
theorem eval_call_attempted {fuel : Nat}
    (hcallee : m.scopes.lookup f name.lexeme = some (.function identity function))
    (harity : arguments.length = function.parameters.length)
    (harguments : (Parts.withFuel fuel).evalEach f arguments m = .ok values n) :
    ∃ before after, (Records.withFuel (fuel + 1)).eval 0 f (.call name arguments) m =
        before ++ ⟨0, n, .call f name arguments function values⟩ :: after ∧
      (n.depthLimit ≤ n.depth → after = [] ∧
        Expr.eval (fuel + 1) f (.call name arguments) m = .error (.failed ⟨.tooDeep, name⟩) n) := by
  let r := Records.withFuel fuel
  let p := Parts.withFuel fuel
  have hnone : following (fun (_ : Value) _ => []) (p.call f name arguments m) = [] := by
    cases p.call f name arguments m <;> rfl
  have hhistory : (Records.withFuel (fuel + 1)).eval 0 f (.call name arguments) m =
      ⟨0, m, .start f (.expression (.call name arguments))⟩ ::
        (r.call p 0 f name arguments m ++ following (fun _ _ => []) (p.call f name arguments m)) :=
    rfl
  have heval : Expr.eval (fuel + 1) f (.call name arguments) m = p.call f name arguments m := rfl
  rw [hhistory, heval, hnone, List.append_nil, Records.call_attempted hcallee harity harguments,
    Parts.call_attempted hcallee harity harguments, Records.invoke, Parts.invoke_apply,
    ← List.cons_append]
  refine ⟨_, _, rfl, fun hdeep => ?_⟩
  simp only [if_pos hdeep, true_and]

end

/-- Evaluating an expression counts the bodies that it enters. -/
theorem callsCounted_eval (fuel f : Nat) (e : Expr) (m : Machine) :
    CallsCounted m ((Records.withFuel fuel).eval 0 f e m) (Expr.eval fuel f e m) :=
  .of_chronicles ((Chronicle.counter.ofParts fuel).eval 0 f e m)
    ((Chronicle.attempts.ofParts fuel).eval 0 f e m) ((Chronicle.endings.ofParts fuel).eval 0 f e m)

/-- So does executing a statement. -/
theorem callsCounted_exec (fuel f : Nat) (s : Stmt) (m : Machine) :
    CallsCounted m ((Records.withFuel fuel).exec 0 f s m) (Stmt.exec fuel f s m) :=
  .of_chronicles ((Chronicle.counter.ofParts fuel).exec 0 f s m)
    ((Chronicle.attempts.ofParts fuel).exec 0 f s m) ((Chronicle.endings.ofParts fuel).exec 0 f s m)

/-- So does running a program. -/
theorem callsCounted_program (fuel : Nat) (program : List Stmt) (m : Machine) :
    CallsCounted m (programHistory fuel program m) (runProgram fuel program m) :=
  .of_chronicles (Chronicle.counter.ofProgram fuel program m)
    (Chronicle.attempts.ofProgram fuel program m) (Chronicle.endings.ofProgram fuel program m)

/-- What the counter tells about the run of a source. -/
theorem Session.callsCounted {fuel : Nat} {s s' : Session} {source : String} {outcome : Outcome}
    (hrun : s.run fuel source = some (outcome, s')) :
    (∀ x ∈ s.history fuel source, x.machine.depth = x.active ∧ x.active ≤ s.machine.depthLimit) ∧
    (outcome.status = .runtimeError ∧
        (∃ d ∈ outcome.diagnostics, d.message = "Maximum recursion depth exceeded.") ↔
      ∃ before x name, s.history fuel source = before ++ [x] ∧ x.IsDeepCall name ∧
        x.active = s.machine.depthLimit) := by
  rw [Session.run_eq] at hrun
  rw [Session.history]
  split at hrun
  next hclean =>
    rw [if_pos hclean]
    have hcalls := callsCounted_program fuel (check source).program s.start
    generalize programHistory fuel (check source).program s.start = history at hcalls
    generalize runProgram fuel (check source).program s.start = result at hcalls hrun
    have hactive (x : Moment) (hx : x ∈ history) :
        x.machine.depth = x.active ∧ x.active ≤ s.machine.depthLimit := by
      have hcounted : x.machine.depth = 0 + x.active := hcalls.counted x hx
      have hbounded : x.machine.depth ≤ s.machine.depthLimit :=
        hcalls.bounded x hx (Nat.zero_le _)
      omega
    refine ⟨hactive, fun ⟨hstatus, d, hd, hmessage⟩ => ?_, ?_⟩
    · rcases result with ⟨flow, m'⟩ | ⟨e | _, m'⟩
      · cases hrun
        cases hstatus
      · cases hrun
        -- No other error is worded like this, and the last moment raised it.
        cases List.mem_singleton.mp hd
        have hfault := RuntimeError.message_diagnostic_iff.mp hmessage
        obtain ⟨fault, name⟩ := e
        cases hfault
        obtain ⟨before, x, rfl, hdeep⟩ := hcalls.raised rfl
        have hx : x ∈ before ++ [x] := by simp
        have hlimit : x.machine.depthLimit = s.machine.depthLimit := hcalls.limit x hx
        obtain ⟨hdepth, hle⟩ := hactive x hx
        have hfull := hdeep.full
        exact ⟨before, x, name, rfl, hdeep, by omega⟩
      · cases hrun
    · rintro ⟨before, x, name, rfl, hdeep, -⟩
      obtain ⟨-, m', rfl, -⟩ := hcalls.refused rfl hdeep
      cases hrun
      exact ⟨rfl, _, List.mem_singleton_self _, rfl⟩
  next hclean =>
    rw [if_neg hclean]
    cases hrun
    simp

/-- The counter of calls is exact. However the evaluation of an expression or the execution of a
statement ends, the counter is what it was before; it counts the active bodies at every moment and
stays within the limit. A call that is attempted is a moment of the history, and exactly the calls
attempted while as many bodies are active as are allowed raise the error about the depth, with
nothing of their body executed. In the run of a source there are no active bodies at the start. -/
theorem calls_counted (fuel : Nat) :
    (∀ f e m, CallsCounted m ((Records.withFuel fuel).eval 0 f e m) (Expr.eval fuel f e m)) ∧
    (∀ f s m, CallsCounted m ((Records.withFuel fuel).exec 0 f s m) (Stmt.exec fuel f s m)) ∧
    (∀ f identity name arguments function values m n,
      m.scopes.lookup f name.lexeme = some (.function identity function) →
      arguments.length = function.parameters.length →
      (Parts.withFuel fuel).evalEach f arguments m = .ok values n →
      ∃ before after, (Records.withFuel (fuel + 1)).eval 0 f (.call name arguments) m =
          before ++ ⟨0, n, .call f name arguments function values⟩ :: after ∧
        (m.depthLimit ≤ m.depth → after = [] ∧
          Expr.eval (fuel + 1) f (.call name arguments) m =
            .error (.failed ⟨.tooDeep, name⟩) n)) ∧
    ∀ s source outcome s', Session.run fuel s source = some (outcome, s') →
      (∀ x ∈ s.history fuel source,
        x.machine.depth = x.active ∧ x.active ≤ s.machine.depthLimit) ∧
      (outcome.status = .runtimeError ∧
          (∃ d ∈ outcome.diagnostics, d.message = "Maximum recursion depth exceeded.") ↔
        ∃ before x name, s.history fuel source = before ++ [x] ∧ x.IsDeepCall name ∧
          x.active = s.machine.depthLimit) := by
  refine ⟨callsCounted_eval fuel, callsCounted_exec fuel, ?_, fun s source outcome s' hrun =>
    Session.callsCounted hrun⟩
  intro f identity name arguments function values m n hcallee harity harguments
  -- Evaluating the arguments has put the counter back.
  have heach := Chronicle.of_each (Chronicle.counter.ofParts fuel) (k := 0) (f := f) arguments m
  rw [harguments] at heach
  have hsame : SameCounter m n := heach.1
  rw [← hsame.depth, ← hsame.limit]
  exact eval_call_attempted hcallee harity harguments

/-- A function that calls itself without end, with two active bodies allowed. -/
theorem calls_counted_endless :
    ∃ before x name, (Session.new 2 {}).history 9 "def f():\n  f()\nf()\n" = before ++ [x] ∧
      x.IsDeepCall name ∧ x.active = 2 := by
  let source := "def f():\n  f()\nf()\n"
  have hcheck : check source = checkUpTo 30 source := check_eq_checkUpTo (by decide +kernel)
  have hclean : (check source).diagnostics = [] := by
    rw [hcheck]
    decide +kernel
  have hend : ((Session.new 2 {}).run 9 source).map Prod.fst = some ⟨.runtimeError,
      [⟨.runtime, 2, " at 'f'", "Maximum recursion depth exceeded.", ⟨11, 12⟩⟩]⟩ := by
    rw [Session.run_of_clean hclean, hcheck]
    decide +kernel
  obtain ⟨⟨outcome, s'⟩, hrun, rfl⟩ := Option.map_eq_some_iff.mp hend
  have hdeep := ((calls_counted 9).2.2.2 _ source _ s' hrun).2
  exact hdeep.mp ⟨rfl, _, List.mem_singleton_self _, rfl⟩

end Offside
