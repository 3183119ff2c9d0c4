import Offside.Proofs.Histories
import Offside.Proofs.Rejections
import Offside.Proofs.SupportedScripts

/-!
# Supported runs

A run of a supported program turns to supported expressions and statements only. The functions that
it calls may have been defined by an earlier run, so the invariant is about the state: every
function that a name is bound to in some frame, also inside lists, has a supported body. Since the
programs of accepted sources are supported, no run of a session finds an operator that is not.
-/

namespace Offside

/-- All functions that a program can reach have supported bodies. -/
def Machine.Supported (m : Machine) : Prop := m.scopes.Binds Value.Supported

/-- A supported expression or statement. -/
def Part.Supported : Part → Prop
  | .expression e => e.Supported
  | .statement s => s.Supported

/-- What happens at a moment is supported: the part that is turned to, the act, or the called
function with its arguments. -/
def Event.Supported : Event → Prop
  | .start _ part => part.Supported
  | .act a => a.Supported
  | .call _ _ arguments function values =>
    Expr.EachSupported arguments ∧ function.Supported ∧ ∀ v ∈ values, v.Supported

/-- A stretch of a run that stays inside the supported forms, with a result that satisfies `K`. -/
structure Stays {α : Type} (K : α → Prop) (h : List Moment)
    (r : EStateM.Result Halt Machine α) : Prop where
  events : ∀ x ∈ h, x.event.Supported
  state : (Eval.stateAfter r).Supported
  value {a : α} {m : Machine} : r = .ok a m → K a
  fault {e : RuntimeError} {m : Machine} : r = .error (.failed e) m →
    e.fault ≠ .unsupportedOperator

namespace Stays

variable {α β : Type} {K : α → Prop} {L : β → Prop} {k f fuel : Nat} {m : Machine}
  {h : List Moment}

/-- A value is reached without any event. -/
theorem done {a : α} (hm : m.Supported) (ha : K a) : Stays K [] (.ok a m) where
  events := by simp
  state := hm
  value heq := by
    cases heq
    exact ha
  fault := nofun

/-- Running out of fuel adds no event. -/
theorem exhausted (hm : m.Supported) :
    Stays K [] (.error .exhausted m : EStateM.Result Halt Machine α) where
  events := by simp
  state := hm
  value := nofun
  fault := nofun

/-- A failure other than the unsupported operator stays within what is supported. -/
theorem failed {e : RuntimeError} (hm : m.Supported) (hh : ∀ x ∈ h, x.event.Supported)
    (he : e.fault ≠ .unsupportedOperator) :
    Stays K h (.error (.failed e) m : EStateM.Result Halt Machine α) where
  events := hh
  state := hm
  value := nofun
  fault heq := by
    cases heq
    exact he

/-- An event in front. -/
theorem cons {x : Moment} {r : EStateM.Result Halt Machine α} (hx : x.event.Supported)
    (hr : Stays K h r) : Stays K (x :: h) r where
  events := List.forall_mem_cons.mpr ⟨hx, hr.events⟩
  state := hr.state
  value := hr.value
  fault := hr.fault

/-- One action after the other. -/
theorem bind {x : Eval α} {y : α → Eval β} {h' : α → Machine → List Moment}
    (hx : Stays K h (x m)) (hy : ∀ a m', K a → m'.Supported → Stays L (h' a m') (y a m')) :
    Stays L (h ++ following h' (x m)) ((x >>= y) m) := by
  simp only [Bind.bind, EStateM.bind]
  cases hrun : x m with
  | ok a m' =>
    rw [hrun] at hx
    have hrest := hy a m' (hx.value rfl) hx.state
    exact ⟨List.forall_mem_append.mpr ⟨hx.events, hrest.events⟩, hrest.state, hrest.value,
      hrest.fault⟩
  | error e m' =>
    rw [hrun] at hx
    rw [following, List.append_nil]
    refine ⟨hx.events, hx.state, fun heq => ?_, fun heq => ?_⟩
    · cases heq
    · cases heq
      exact hx.fault rfl

/-- What is made of the result is no moment. -/
theorem map {x : Eval α} (g : α → β) (hx : Stays K h (x m)) (hg : ∀ a, K a → L (g a)) :
    Stays L h ((x >>= fun a => pure (g a)) m) := by
  have hnone : following (fun (_ : α) _ => []) (x m) = [] := by cases x m <;> rfl
  rw [← List.append_nil h, ← hnone]
  exact bind hx fun a m' ha hm' => done hm' (hg a ha)

/-- A last step that keeps a machine supported keeps a run so. -/
theorem settled {r : EStateM.Result Halt Machine α} {change : Machine → Machine}
    (hr : Stays K h r) (hchange : ∀ m, m.Supported → (change m).Supported) :
    Stays K h (Eval.settled change r) := by
  refine ⟨hr.events, ?_, fun heq => ?_, fun heq => ?_⟩
  · rw [Eval.stateAfter_settled]
    exact hchange _ hr.state
  · cases r with
    | ok a m =>
      cases heq
      exact hr.value rfl
    | error e m => cases heq
  · cases r with
    | ok a m => cases heq
    | error e m =>
      cases heq
      exact hr.fault rfl

/-- A supported act. -/
theorem act {a : Act} (ha : a.Supported) (hm : m.Supported) :
    Stays a.Gives [⟨k, m, .act a⟩] (a.perform m) := by
  have hevent : ∀ x ∈ [(⟨k, m, .act a⟩ : Moment)], x.event.Supported :=
    List.forall_mem_singleton.mpr ha
  cases a with
  | lookup f name =>
    rw [Act.perform, Eval.lookup_apply]
    split
    next v hv => exact .cons ha (.done hm (Scopes.Binds.lookup hm hv))
    next => exact .failed hm hevent (by simp)
  | assign f name value => exact .cons ha (.done (Scopes.Binds.assign hm f name.lexeme ha) trivial)
  | issue => exact .cons ha (.done hm trivial)
  | print keyword line =>
    simp only [Act.perform, Eval.print]
    split
    · exact .cons ha (.done hm trivial)
    · exact .failed hm hevent (by simp)
  | fail e hfault => exact .failed hm hevent ha

/-! ## Parts, blocks and calls -/

/-- Evaluation with some fuel stays inside the supported forms. -/
structure OfParts (fuel : Nat) : Prop where
  eval (k f : Nat) {e : Expr} {m : Machine} : e.Supported → m.Supported →
    Stays Value.Supported ((Records.withFuel fuel).eval k f e m) (Expr.eval fuel f e m)
  exec (k f : Nat) {s : Stmt} {m : Machine} : s.Supported → m.Supported →
    Stays Flow.Supported ((Records.withFuel fuel).exec k f s m) (Stmt.exec fuel f s m)

section

variable (hp : OfParts fuel)

include hp

/-- Supported arguments are evaluated to supported values. -/
theorem of_each {es : List Expr} (hes : Expr.EachSupported es) (hm : m.Supported) :
    Stays (fun vs => ∀ v ∈ vs, v.Supported)
      ((Records.withFuel fuel).each (Parts.withFuel fuel) k f es m)
      ((Parts.withFuel fuel).evalEach f es m) := by
  induction es generalizing m with
  | nil => exact .done hm (by simp)
  | cons e es ih =>
    rw [Expr.EachSupported] at hes
    refine bind (hp.eval k f hes.1 hm) fun v m' hv hm' => ?_
    exact map (v :: ·) (ih hes.2 hm') fun vs hvs => List.forall_mem_cons.mpr ⟨hv, hvs⟩

/-- A supported body stays within what is supported. -/
theorem of_body {statements : List Stmt} (hs : Stmt.EachSupported statements) (hm : m.Supported) :
    Stays Flow.Supported ((Records.withFuel fuel).body (Parts.withFuel fuel) k f statements m)
      (Eval.untilReturn (Stmt.exec fuel f) statements m) := by
  induction statements generalizing m with
  | nil => exact .done hm (.plain rfl)
  | cons s rest ih =>
    rw [Stmt.EachSupported] at hs
    refine bind (hp.exec k f hs.1 hm) fun flow m' hflow hm' => ?_
    cases flow with
    | next => exact ih hs.2 hm'
    | returned v => exact .done hm' hflow

/-- So does a supported block. -/
theorem of_block {body : List Stmt} (hbody : Stmt.BodySupported body) (hm : m.Supported) :
    Stays Flow.Supported ((Records.withFuel fuel).block (Parts.withFuel fuel) k f body m)
      ((Parts.withFuel fuel).execBlock f body m) := by
  rw [Parts.execBlock_apply, Eval.thenAlways_apply]
  have hinside : (m.enter f []).Supported := Scopes.Binds.push hm (some f) (by simp)
  exact (of_body hp (Stmt.bodySupported_iff.mp hbody).2 hinside).settled fun _ hm' => hm'.truncate _

/-- So does the invocation of a supported function. -/
theorem of_invoke {name : Token} {arguments : List Expr} {function : Function}
    {values : List Value} (harguments : Expr.EachSupported arguments)
    (hfunction : function.Supported) (hvalues : ∀ v ∈ values, v.Supported) (hm : m.Supported) :
    Stays Value.Supported
      ((Records.withFuel fuel).invoke (Parts.withFuel fuel) k f name arguments function values m)
      ((Parts.withFuel fuel).invoke name function values m) := by
  have hevent : Event.Supported (.call f name arguments function values) :=
    ⟨harguments, hfunction, hvalues⟩
  rw [Parts.invoke_apply, Records.invoke]
  by_cases hdeep : m.depthLimit ≤ m.depth
  · simp only [if_pos hdeep]
    exact .failed hm (List.forall_mem_singleton.mpr hevent) (by simp)
  · simp only [if_neg hdeep]
    have hinside : (m.call (Parts.bindParameters function.parameters values)).Supported :=
      Scopes.Binds.push hm _ fun v hv => hvalues v (Parts.snd_mem_bindParameters hv)
    have hbody := of_body hp (k := k + 1) (f := m.scopes.size)
      (Stmt.bodySupported_iff.mp hfunction).2 hinside
    have hback := hbody.settled fun m' (hm' : m'.Supported) =>
      show (m'.comeBack m.scopes.size).Supported from hm'.truncate _
    rw [← Eval.thenAlways_apply] at hback
    exact .cons hevent
      (map (x := (Parts.withFuel fuel).runBody function values) Flow.result hback fun _ h => h)

/-- A called function was found in the state, so its body is supported. -/
theorem of_call {arguments : List Expr} (harguments : Expr.EachSupported arguments)
    (name : Token) (hm : m.Supported) :
    Stays Value.Supported
      ((Records.withFuel fuel).call (Parts.withFuel fuel) k f name arguments m)
      ((Parts.withFuel fuel).call f name arguments m) := by
  have hfail {fault : RuntimeFault} (hfault : fault.isLimit = false)
      (hne : fault ≠ .unsupportedOperator) {m' : Machine} (hm' : m'.Supported) :
      Stays Value.Supported [⟨k, m', .act (.fail ⟨fault, name⟩ hfault)⟩]
        ((Eval.fail fault name : Eval Value) m') :=
    .failed hm' (List.forall_mem_singleton.mpr hne) hne
  refine bind (act (a := .lookup f name) trivial hm) fun callee m' hcallee hm' => ?_
  cases callee with
  | function identity function =>
    simp only
    split
    · exact hfail rfl (by simp) hm'
    · refine bind (of_each hp harguments hm') fun values m'' hvalues hm'' => ?_
      exact of_invoke hp harguments (Value.Supported.definition hcallee) hvalues hm''
  | _ => exact hfail rfl (by simp) hm'

/-- A supported script stays within what is supported, by induction on the script. -/
theorem of_script {s : Script α} (hs : s.Supported K) (hm : m.Supported) :
    Stays K (s.history (Records.withFuel fuel) (Parts.withFuel fuel) k m)
      (s.run (Parts.withFuel fuel) m) := by
  induction s generalizing m with
  | done a => exact .done hm hs
  | exhausted => exact .exhausted hm
  | act a next ih => exact bind (act hs.1 hm) fun v m' hv hm' => ih v (hs.2 v hv) hm'
  | eval f e next ih => exact bind (hp.eval k f hs.1 hm) fun v m' hv hm' => ih v (hs.2 v hv) hm'
  | each f es next ih => exact bind (of_each hp hs.1 hm) fun vs m' hv hm' => ih vs (hs.2 vs hv) hm'
  | block f body next ih =>
    exact bind (of_block hp hs.1 hm) fun flow m' hflow hm' => ih flow (hs.2 flow hflow) hm'
  | call f name arguments next ih =>
    exact bind (of_call hp hs.1 name hm) fun v m' hv hm' => ih v (hs.2 v hv) hm'

end

/-- Evaluation stays inside the supported forms. -/
theorem ofParts (fuel : Nat) : OfParts fuel := by
  induction fuel with
  | zero => exact ⟨fun _ _ _ _ _ hm => .exhausted hm, fun _ _ _ _ _ hm => .exhausted hm⟩
  | succ fuel ih =>
    refine ⟨fun k f e m he hm => ?_, fun k f s m hs hm => ?_⟩
    · have hscript := of_script ih (k := k) (Expr.supported_scripted he f) hm
      rw [(e.scripted f).run_eq] at hscript
      exact .cons he hscript
    · have hscript := of_script ih (k := k) (Stmt.supported_scripted hs fuel f) hm
      rw [(s.scripted fuel f).run_eq] at hscript
      exact .cons hs hscript

/-- A supported program stays within what is supported. -/
theorem ofProgram {program : List Stmt} (h : Stmt.EachSupported program) (fuel : Nat)
    (hm : m.Supported) :
    Stays Flow.Supported (programHistory fuel program m) (runProgram fuel program m) :=
  of_body (ofParts fuel) h hm

end Stays

/-! ## Messages -/

/-- The message about an operator that is not supported. -/
def Diagnostic.SaysUnsupported (d : Diagnostic) : Prop :=
  "Unsupported operator".toList <+: d.message.toList

/-- The third letter tells this message from all others. -/
theorem Diagnostic.SaysUnsupported.third {d : Diagnostic} (h : d.SaysUnsupported) :
    d.message.toList[2]? = some 's' := by
  obtain ⟨rest, hrest⟩ := h
  simp [← hrest]

/-- Only the unsupported operator is reported as one. -/
theorem RuntimeError.fault_of_saysUnsupported {e : RuntimeError}
    (h : e.diagnostic.SaysUnsupported) : e.fault = .unsupportedOperator := by
  obtain ⟨fault, token⟩ := e
  have hthird := h.third
  simp only [RuntimeError.diagnostic, Diagnostic.atToken] at hthird
  cases fault <;> first | rfl | simp [RuntimeError.message, String.toList_append] at hthird

/-- No lexical fault is worded like the unsupported operator. -/
theorem LexicalFault.third_message (fault : LexicalFault) :
    fault.message.toList[2]? ≠ some 's' := by
  cases fault with
  | invalidNumber text =>
    change ("Invalid number literal '" ++ text ++ "'.").toList[2]? ≠ some 's'
    simp [String.toList_append]
  | _ => decide

/-- No syntax fault is worded like the unsupported operator. -/
theorem SyntaxFault.third_message (fault : SyntaxFault) :
    fault.message.toList[2]? ≠ some 's' := by
  cases fault <;> simp [SyntaxFault.message, String.toList_append]

/-- No static diagnostic reports an unsupported operator. -/
theorem not_saysUnsupported_check (source : String) :
    ∀ d ∈ (check source).diagnostics, ¬ d.SaysUnsupported := by
  intro d hd
  rcases List.mem_append.mp hd with hd | hd
  · obtain ⟨e, _, rfl⟩ := List.mem_map.mp hd
    exact fun h => e.fault.third_message h.third
  · obtain ⟨e, _, rfl⟩ := List.mem_map.mp hd
    exact fun h => e.fault.third_message h.third

/-! ## Sessions -/

namespace Session

/-- A new session holds no values. -/
theorem supported_new (depthLimit : Nat) (sink : Sink) :
    (Session.new depthLimit sink).machine.Supported :=
  (Scopes.binds_empty _).push none (by simp)

variable {fuel : Nat} {s t : Session} {source : String} {outcome : Outcome} {runs : List Ran}

/-- Running a source keeps the functions of a session supported, and reports no operator. -/
theorem supported_run (hs : s.machine.Supported) (hrun : s.run fuel source = some (outcome, t)) :
    t.machine.Supported ∧ ∀ d ∈ outcome.diagnostics, ¬ d.SaysUnsupported := by
  rw [Session.run_eq] at hrun
  split at hrun
  next hclean =>
    have hprogram := supported_check (List.isEmpty_iff.mp hclean)
    have hstays := Stays.ofProgram hprogram fuel (m := s.start) hs
    rw [Session.machine_of_conclude hrun]
    refine ⟨hstays.state, fun d hd h => ?_⟩
    cases hend : runProgram fuel (check source).program s.start with
    | ok flow m =>
      rw [hend] at hrun
      cases hrun
      cases hd
    | error halt m =>
      rw [hend] at hrun
      cases halt with
      | exhausted => cases hrun
      | failed e =>
        cases hrun
        obtain rfl := List.mem_singleton.mp hd
        exact hstays.fault hend (RuntimeError.fault_of_saysUnsupported h)
  next =>
    cases hrun
    exact ⟨hs, not_saysUnsupported_check source⟩

/-- Every event of a run is supported. -/
theorem supported_history (hs : s.machine.Supported) (fuel : Nat) (source : String) :
    ∀ x ∈ s.history fuel source, x.event.Supported := by
  unfold Session.history
  split
  next hclean =>
    have hprogram := supported_check (List.isEmpty_iff.mp hclean)
    exact (Stays.ofProgram hprogram fuel (m := s.start) hs).events
  next => simp

/-- Runs keep a session supported and report no unsupported operator. -/
theorem Runs.supported (h : s.Runs runs t) (hs : s.machine.Supported) :
    t.machine.Supported ∧ ∀ r ∈ runs, ∀ d ∈ r.outcome.diagnostics, ¬ d.SaysUnsupported := by
  induction h with
  | nil s => exact ⟨hs, by simp⟩
  | cons hrun _ ih =>
    obtain ⟨ht, hquiet⟩ := supported_run hs hrun
    obtain ⟨hu, hothers⟩ := ih ht
    exact ⟨hu, List.forall_mem_cons.mpr ⟨hquiet, hothers⟩⟩

/-- The programs of accepted sources are supported. After any runs of a new session, a further
source turns to supported expressions and statements only and calls functions with supported bodies
only, wherever these were defined, as far as it is followed; and no run has reported an operator
that is not supported. That a branch has a clause, that the body of a compound statement is a block
and that a step comes with an end is said by the types of trees. -/
theorem supported_runs {depthLimit : Nat} {sink : Sink}
    (h : (Session.new depthLimit sink).Runs runs t) :
    (∀ source, (check source).diagnostics = [] → Stmt.EachSupported (check source).program) ∧
      (∀ fuel source, ∀ x ∈ t.history fuel source, x.event.Supported) ∧
      ∀ r ∈ runs, ∀ d ∈ r.outcome.diagnostics, ¬ d.SaysUnsupported := by
  obtain ⟨ht, hquiet⟩ := h.supported (supported_new depthLimit sink)
  exact ⟨fun _ => supported_check, supported_history ht, hquiet⟩

/-- A function of the first run fails in the second one, and the next call of it enters its body. -/
theorem supported_runs_across :
    ∃ runs t, (Session.new 10 {}).Runs runs t ∧
      runs.map (fun r => (r.source, r.outcome.diagnostics.map Diagnostic.message)) =
        [("def f(x):\n  return -x", []), ("f(\"a\")", ["Operand must be a number."])] ∧
      1 ∈ (t.history 9 "f(\"a\")").map Moment.active ∧
      (∀ x ∈ t.history 9 "f(\"a\")", x.event.Supported) ∧
      ∀ r ∈ runs, ∀ d ∈ r.outcome.diagnostics, ¬ d.SaysUnsupported := by
  let first := "def f(x):\n  return -x"
  let second := "f(\"a\")"
  have hcheck₁ : check first = checkUpTo 30 first := check_eq_checkUpTo (by decide +kernel)
  have hcheck₂ : check second = checkUpTo 30 second := check_eq_checkUpTo (by decide +kernel)
  have hend : (((Session.new 10 {}).run 9 first).bind fun r => (r.2.run 9 second).map fun r' =>
      ([(first, r.1.diagnostics.map Diagnostic.message),
        (second, r'.1.diagnostics.map Diagnostic.message)],
        (r'.2.history 9 second).map Moment.active |>.contains 1)) =
      some ([(first, []), (second, ["Operand must be a number."])], true) := by
    simp only [Session.run_eq, Session.history, hcheck₁, hcheck₂]
    decide +kernel
  obtain ⟨⟨outcome₁, t₁⟩, hrun₁, hend⟩ := Option.bind_eq_some_iff.mp hend
  obtain ⟨⟨outcome₂, t₂⟩, hrun₂, hend⟩ := Option.map_eq_some_iff.mp hend
  obtain ⟨hseen, hinside⟩ := Prod.mk.inj hend
  have hruns := Runs.cons hrun₁ (.cons hrun₂ (.nil t₂))
  obtain ⟨-, hhistory, hquiet⟩ := supported_runs hruns
  exact ⟨_, t₂, hruns, hseen, List.contains_iff_mem.mp hinside, hhistory 9 second, hquiet⟩

end Session

end Offside
