import Mathlib.Data.List.Forall2
import Offside.Proofs.Histories

/-!
# Runs with different limits

Two runs of the same program start in the same state, except that the first machine has narrower
limits: a sink that takes less, or a smaller depth. Moment by moment they do the same, up to the
end or up to the moment at which the first run meets one of its limits and fails. What is left of
the second run then is not compared with anything.
-/

namespace Offside

/-- How the limits of one machine may be narrower than those of another one. -/
structure Leeway where
  sinks : Sink → Sink → Prop
  limits : Nat → Nat → Prop
  /-- The faults for which the first run is excused. -/
  excused : RuntimeFault → Prop
  writeLine {s s' : Sink} (line : String) : sinks s s' →
    (s.writeLine line).1 = (s'.writeLine line).1 ∧
        sinks (s.writeLine line).2 (s'.writeLine line).2 ∨
      ∃ cause, (s.writeLine line).1 = .error cause ∧ excused (.output cause)
  tooDeep {limit limit' depth : Nat} : limits limit limit' → limit ≤ depth →
    limit' ≤ depth ∨ excused .tooDeep
  notTooDeep {limit limit' depth : Nat} : limits limit limit' → limit' ≤ depth → limit ≤ depth

namespace Leeway

variable {L : Leeway} {α β : Type} {k f fuel : Nat} {m m' : Machine} {h h' : List Moment}

/-- The same states up to the limits. -/
structure Twins (L : Leeway) (m m' : Machine) : Prop where
  scopes : m.scopes = m'.scopes
  depth : m.depth = m'.depth
  identity : m.nextIdentity = m'.nextIdentity
  sink : L.sinks m.sink m'.sink
  limit : L.limits m.depthLimit m'.depthLimit

/-- The same moments up to the limits of the machine. -/
structure TwinMoments (L : Leeway) (x x' : Moment) : Prop where
  active : x.active = x'.active
  machine : L.Twins x.machine x'.machine
  event : x.event = x'.event

/-- How the histories and the results of two runs belong together. -/
inductive Along (L : Leeway) : List Moment → EStateM.Result Halt Machine α → List Moment →
    EStateM.Result Halt Machine α → Prop
  | ok {h h' : List Moment} {a : α} {m m' : Machine} : List.Forall₂ L.TwinMoments h h' →
    L.Twins m m' → Along L h (.ok a m) h' (.ok a m')
  | exhausted {h h' : List Moment} {m m' : Machine} : List.Forall₂ L.TwinMoments h h' →
    Along L h (.error .exhausted m) h' (.error .exhausted m')
  | failed {h h' : List Moment} {e : RuntimeError} {m m' : Machine} :
    List.Forall₂ L.TwinMoments h h' → L.Twins m m' → ¬ L.excused e.fault →
    Along L h (.error (.failed e) m) h' (.error (.failed e) m')
  | parted {h g h' : List Moment} {e : RuntimeError} {m : Machine}
    {r : EStateM.Result Halt Machine α} : List.Forall₂ L.TwinMoments h g → g <+: h' →
    L.excused e.fault → Along L h (.error (.failed e) m) h' r

/-! ## Changes of twins -/

namespace Twins

/-- Twins that enter a frame stay twins. -/
theorem enter (hm : L.Twins m m') (f : Nat) (bindings : Bindings) :
    L.Twins (m.enter f bindings) (m'.enter f bindings) :=
  ⟨congrArg (·.push (some f) bindings) hm.scopes, hm.depth, hm.identity, hm.sink, hm.limit⟩

/-- Twins that leave a frame stay twins. -/
theorem leave (hm : L.Twins m m') (size : Nat) : L.Twins (m.leave size) (m'.leave size) :=
  ⟨congrArg (·.truncate size) hm.scopes, hm.depth, hm.identity, hm.sink, hm.limit⟩

/-- Twins that start the body of a function stay twins. -/
theorem call (hm : L.Twins m m') (bindings : Bindings) :
    L.Twins (m.call bindings) (m'.call bindings) :=
  ⟨(hm.enter Machine.globalFrame bindings).scopes, congrArg (· + 1) hm.depth, hm.identity, hm.sink,
    hm.limit⟩

/-- Twins that come back from the body of a function stay twins. -/
theorem comeBack (hm : L.Twins m m') (size : Nat) :
    L.Twins (m.comeBack size) (m'.comeBack size) :=
  ⟨(hm.leave size).scopes, congrArg (· - 1) hm.depth, hm.identity, hm.sink, hm.limit⟩

/-- Twins at which the same happens. -/
theorem moment (hm : L.Twins m m') (k : Nat) (event : Event) :
    List.Forall₂ L.TwinMoments [⟨k, m, event⟩] [⟨k, m', event⟩] :=
  .cons ⟨rfl, hm, rfl⟩ .nil

end Twins

/-! ## Combining runs -/

namespace Along

/-- Both runs fail alike, whether the first one is excused or not. -/
theorem both_failed {e : RuntimeError} (hh : List.Forall₂ L.TwinMoments h h')
    (hm : L.Twins m m') :
    L.Along h (.error (.failed e) m : EStateM.Result Halt Machine α) h'
      (.error (.failed e) m') := by
  by_cases hexcused : L.excused e.fault
  · exact .parted hh (List.prefix_refl _) hexcused
  · exact .failed hh hm hexcused

/-- The same moments in front of both runs. -/
theorem prepend {g g' : List Moment} {r r' : EStateM.Result Halt Machine α}
    (hh : List.Forall₂ L.TwinMoments h h') (hr : L.Along g r g' r') :
    L.Along (h ++ g) r (h' ++ g') r' := by
  cases hr with
  | ok hg hm => exact .ok (List.rel_append hh hg) hm
  | exhausted hg => exact .exhausted (List.rel_append hh hg)
  | failed hg hm he => exact .failed (List.rel_append hh hg) hm he
  | parted hg hstart he =>
    exact .parted (List.rel_append hh hg) ((List.prefix_append_right_inj h').mpr hstart) he

/-- One action after the other. -/
theorem bind {x : Eval α} {y : α → Eval β} {next : α → Machine → List Moment}
    (hx : L.Along h (x m) h' (x m'))
    (hy : ∀ a n n', L.Twins n n' → L.Along (next a n) (y a n) (next a n') (y a n')) :
    L.Along (h ++ following next (x m)) ((x >>= y) m)
      (h' ++ following next (x m')) ((x >>= y) m') := by
  simp only [Bind.bind, EStateM.bind]
  generalize x m = r at hx
  generalize x m' = r' at hx
  cases hx with
  | ok hh hn => exact prepend hh (hy _ _ _ hn)
  | exhausted hh => exact prepend hh (.exhausted .nil)
  | failed hh hn he => exact prepend hh (.failed .nil hn he)
  | parted hh hstart he =>
    rw [following, List.append_nil]
    exact .parted hh (hstart.trans (List.prefix_append _ _)) he

/-- What is made of the result is no moment. -/
theorem map {x : Eval α} (g : α → β) (hx : L.Along h (x m) h' (x m')) :
    L.Along h ((x >>= fun a => pure (g a)) m) h' ((x >>= fun a => pure (g a)) m') := by
  have hnone (n : Machine) : following (fun (_ : α) _ => []) (x n) = [] := by cases x n <;> rfl
  have hbind : L.Along (h ++ following (fun _ _ => []) (x m)) ((x >>= fun a => pure (g a)) m)
      (h' ++ following (fun _ _ => []) (x m')) ((x >>= fun a => pure (g a)) m') :=
    bind hx fun _ _ _ hn => .ok .nil hn
  rwa [hnone, hnone, List.append_nil, List.append_nil] at hbind

/-- Changing the states at the end in the same way. -/
theorem settled {r r' : EStateM.Result Halt Machine α} {change : Machine → Machine}
    (hr : L.Along h r h' r') (hchange : ∀ n n', L.Twins n n' → L.Twins (change n) (change n')) :
    L.Along h (Eval.settled change r) h' (Eval.settled change r') := by
  cases hr with
  | ok hh hm => exact .ok hh (hchange _ _ hm)
  | exhausted hh => exact .exhausted hh
  | failed hh hm he => exact .failed hh (hchange _ _ hm) he
  | parted hh hstart he => exact .parted hh hstart he

end Along

/-- Twins do the same act alike. -/
theorem along_act (hm : L.Twins m m') (a : Act) :
    L.Along [⟨k, m, .act a⟩] (a.perform m) [⟨k, m', .act a⟩] (a.perform m') := by
  have hh := hm.moment k (.act a)
  cases a with
  | lookup f name =>
    simp only [Act.perform, Eval.lookup_apply, hm.scopes]
    split
    · exact .ok hh hm
    · exact .both_failed hh hm
  | assign f name value =>
    exact .ok hh ⟨congrArg (·.assign f name.lexeme value) hm.scopes, hm.depth, hm.identity, hm.sink,
      hm.limit⟩
  | issue =>
    have hissued : Act.issue.perform m = .ok m'.nextIdentity m.issue := by rw [← hm.identity]; rfl
    rw [hissued]
    exact .ok hh ⟨hm.scopes, hm.depth, congrArg (· + 1) hm.identity, hm.sink, hm.limit⟩
  | print keyword line =>
    simp only [Act.perform, Eval.print]
    rcases L.writeLine line hm.sink with ⟨hsame, hsinks⟩ | ⟨cause, hrefused, hexcused⟩
    · generalize m.sink.writeLine line = written at hsame hsinks
      generalize m'.sink.writeLine line = written' at hsame hsinks
      obtain ⟨result, sink⟩ := written
      obtain ⟨result', sink'⟩ := written'
      cases hsame
      have htwins : L.Twins { m with sink } { m' with sink := sink' } :=
        ⟨hm.scopes, hm.depth, hm.identity, hsinks, hm.limit⟩
      cases result with
      | ok _ => exact .ok hh htwins
      | error cause => exact .both_failed hh htwins
    · generalize m.sink.writeLine line = written at hrefused
      obtain ⟨result, sink⟩ := written
      cases hrefused
      exact .parted hh (List.prefix_refl _) hexcused
  | fail e hfault => exact .both_failed hh hm

/-- The runs of parts go along with each other. -/
structure OfParts (L : Leeway) (fuel : Nat) : Prop where
  eval (k f : Nat) (e : Expr) {m m' : Machine} : L.Twins m m' →
    L.Along ((Records.withFuel fuel).eval k f e m) (Expr.eval fuel f e m)
      ((Records.withFuel fuel).eval k f e m') (Expr.eval fuel f e m')
  exec (k f : Nat) (s : Stmt) {m m' : Machine} : L.Twins m m' →
    L.Along ((Records.withFuel fuel).exec k f s m) (Stmt.exec fuel f s m)
      ((Records.withFuel fuel).exec k f s m') (Stmt.exec fuel f s m')

section

variable (hp : L.OfParts fuel)

include hp

/-- Twins evaluate arguments along each other. -/
theorem along_each (es : List Expr) (hm : L.Twins m m') :
    L.Along ((Records.withFuel fuel).each (Parts.withFuel fuel) k f es m)
      ((Parts.withFuel fuel).evalEach f es m)
      ((Records.withFuel fuel).each (Parts.withFuel fuel) k f es m')
      ((Parts.withFuel fuel).evalEach f es m') := by
  induction es generalizing m m' with
  | nil => exact .ok .nil hm
  | cons e es ih => exact .bind (hp.eval k f e hm) fun v n n' hn => .map (v :: ·) (ih hn)

/-- Twins execute a body along each other. -/
theorem along_body (statements : List Stmt) (hm : L.Twins m m') :
    L.Along ((Records.withFuel fuel).body (Parts.withFuel fuel) k f statements m)
      (Eval.untilReturn (Stmt.exec fuel f) statements m)
      ((Records.withFuel fuel).body (Parts.withFuel fuel) k f statements m')
      (Eval.untilReturn (Stmt.exec fuel f) statements m') := by
  induction statements generalizing m m' with
  | nil => exact .ok .nil hm
  | cons s rest ih =>
    refine .bind (hp.exec k f s hm) fun flow n n' hn => ?_
    cases flow with
    | next => exact ih hn
    | returned v => exact .ok .nil hn

/-- Twins execute a block along each other. -/
theorem along_block (statements : List Stmt) (hm : L.Twins m m') :
    L.Along ((Records.withFuel fuel).block (Parts.withFuel fuel) k f statements m)
      ((Parts.withFuel fuel).execBlock f statements m)
      ((Records.withFuel fuel).block (Parts.withFuel fuel) k f statements m')
      ((Parts.withFuel fuel).execBlock f statements m') := by
  simp only [Parts.execBlock_apply, Eval.thenAlways_apply, Records.block, ← hm.scopes]
  exact (along_body hp statements (hm.enter f [])).settled fun _ _ hn => hn.leave _

/-- Twins attempt a call along each other, unless only one is over its limit. -/
theorem along_invoke (name : Token) (arguments : List Expr) (function : Function)
    (values : List Value) (hm : L.Twins m m') :
    L.Along
      ((Records.withFuel fuel).invoke (Parts.withFuel fuel) k f name arguments function values m)
      ((Parts.withFuel fuel).invoke name function values m)
      ((Records.withFuel fuel).invoke (Parts.withFuel fuel) k f name arguments function values m')
      ((Parts.withFuel fuel).invoke name function values m') := by
  have hh := hm.moment k (.call f name arguments function values)
  simp only [Parts.invoke_apply, Records.invoke]
  by_cases hdeep : m.depthLimit ≤ m.depth
  · simp only [if_pos hdeep]
    -- The second run is refused the call as well, or goes on alone with the body.
    rcases L.tooDeep hm.limit hdeep with hdeep' | hexcused
    · rw [hm.depth] at hdeep'
      simp only [if_pos hdeep']
      exact .both_failed hh hm
    · exact .parted hh (List.prefix_append [_] _) hexcused
  · have hroom : ¬ m'.depthLimit ≤ m'.depth := by
      rw [← hm.depth]
      exact fun hdeep' => hdeep (L.notTooDeep hm.limit hdeep')
    simp only [if_neg hdeep, if_neg hroom]
    have hbody := along_body hp (k := k + 1) (f := m.scopes.size) function.body
      (hm.call (Parts.bindParameters function.parameters values))
    have hback := Along.prepend hh (hbody.settled fun _ _ hn => hn.comeBack m.scopes.size)
    rw [← Eval.thenAlways_apply, ← Eval.thenAlways_apply] at hback
    have hsize : m.scopes.size = m'.scopes.size := by rw [hm.scopes]
    refine .map (x := (Parts.withFuel fuel).runBody function values) Flow.result ?_
    simp only [Parts.runBody, ← hsize]
    exact hback

/-- Twins make a call along each other. -/
theorem along_call (name : Token) (arguments : List Expr) (hm : L.Twins m m') :
    L.Along ((Records.withFuel fuel).call (Parts.withFuel fuel) k f name arguments m)
      ((Parts.withFuel fuel).call f name arguments m)
      ((Records.withFuel fuel).call (Parts.withFuel fuel) k f name arguments m')
      ((Parts.withFuel fuel).call f name arguments m') := by
  refine .bind (along_act hm (.lookup f name)) fun callee n n' hn => ?_
  have hfail (fault : RuntimeFault) (hfault : fault.isLimit = false) :
      L.Along [⟨k, n, .act (.fail ⟨fault, name⟩ hfault)⟩] ((Eval.fail fault name : Eval Value) n)
        [⟨k, n', .act (.fail ⟨fault, name⟩ hfault)⟩] ((Eval.fail fault name : Eval Value) n') :=
    .both_failed (hn.moment k _) hn
  cases callee with
  | function identity function =>
    simp only
    split
    · exact hfail _ rfl
    · exact .bind (along_each hp arguments hn) fun values _ _ hn' =>
        along_invoke hp name arguments function values hn'
  | _ => exact hfail _ rfl

/-- Twins run a script along each other, by induction on the script. -/
theorem along_script (s : Script α) (hm : L.Twins m m') :
    L.Along (s.history (Records.withFuel fuel) (Parts.withFuel fuel) k m)
      (s.run (Parts.withFuel fuel) m)
      (s.history (Records.withFuel fuel) (Parts.withFuel fuel) k m')
      (s.run (Parts.withFuel fuel) m') := by
  induction s generalizing m m' with
  | done a => exact .ok .nil hm
  | exhausted => exact .exhausted .nil
  | act a next ih => exact .bind (along_act hm a) fun v _ _ hn => ih v hn
  | eval f e next ih => exact .bind (hp.eval k f e hm) fun v _ _ hn => ih v hn
  | each f es next ih => exact .bind (along_each hp es hm) fun vs _ _ hn => ih vs hn
  | block f body next ih => exact .bind (along_block hp body hm) fun flow _ _ hn => ih flow hn
  | call f name arguments next ih =>
    exact .bind (along_call hp name arguments hm) fun v _ _ hn => ih v hn

end

/-- Every run goes along with its twin. -/
theorem ofParts (L : Leeway) (fuel : Nat) : L.OfParts fuel := by
  induction fuel with
  | zero => exact ⟨fun _ _ _ _ _ _ => .exhausted .nil, fun _ _ _ _ _ _ => .exhausted .nil⟩
  | succ fuel ih =>
    refine ⟨fun k f e m m' hm => ?_, fun k f s m m' hm => ?_⟩
    · have hscript := along_script ih (k := k) (e.scripted f).script hm
      rw [(e.scripted f).run_eq] at hscript
      exact .prepend (hm.moment k _) hscript
    · have hscript := along_script ih (k := k) (s.scripted fuel f).script hm
      rw [(s.scripted fuel f).run_eq] at hscript
      exact .prepend (hm.moment k _) hscript

/-- Twins run a whole program along each other. -/
theorem ofProgram (L : Leeway) (fuel : Nat) (program : List Stmt) (hm : L.Twins m m') :
    L.Along (programHistory fuel program m) (runProgram fuel program m)
      (programHistory fuel program m') (runProgram fuel program m') :=
  along_body (L.ofParts fuel) program hm

end Leeway

end Offside
