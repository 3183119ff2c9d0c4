import Offside.Proofs.Scripts

/-!
# Histories of runs

The history of a run lists what the program does, moment by moment: the expressions and statements
that it turns to, its acts and its calls, each with the state in which it happens and with the
number of function bodies that are being executed. That number is counted along the nesting of the
bodies and not taken from the state. What single moments, blocks and bodies promise about histories,
the history of every run promises: scripts are gone through once here, and the recursion is tied by
induction on the fuel.
-/

namespace Offside

/-- An expression or a statement. -/
inductive Part where
  | expression (e : Expr)
  | statement (s : Stmt)

/-- What happens at a moment. -/
inductive Event where
  /-- The evaluation of an expression or the execution of a statement starts. -/
  | start (frame : Nat) (part : Part)
  | act (a : Act)
  /-- A call of a function by name, with evaluated arguments. -/
  | call (frame : Nat) (name : Token) (arguments : List Expr) (function : Function)
    (values : List Value)

/-- A moment of a run. -/
structure Moment where
  /-- The number of function bodies being executed. -/
  active : Nat
  /-- The state in which the event happens. -/
  machine : Machine
  event : Event

/-- What follows a success; nothing follows a halt. -/
def following {α : Type} (next : α → Machine → List Moment) :
    EStateM.Result Halt Machine α → List Moment
  | .ok a m => next a m
  | .error _ _ => []

/-- The histories of the evaluation of parts, inside a number of active bodies and in a frame. -/
structure Records where
  eval : Nat → Nat → Expr → Machine → List Moment
  exec : Nat → Nat → Stmt → Machine → List Moment

namespace Records

variable (r : Records) (p : Parts)

/-- The history of expressions that are evaluated from left to right. -/
def each (k f : Nat) : List Expr → Machine → List Moment
  | [], _ => []
  | e :: es, m => r.eval k f e m ++ following (fun _ m => each k f es m) (p.eval f e m)

/-- The history of statements that are executed up to the first return. -/
def body (k f : Nat) : List Stmt → Machine → List Moment
  | [], _ => []
  | s :: rest, m =>
    let next (flow : Flow) (m : Machine) : List Moment :=
      match flow with
      | .next => body k f rest m
      | .returned _ => []
    r.exec k f s m ++ following next (p.exec f s m)

/-- The history of a block. -/
def block (k f : Nat) (body : List Stmt) (m : Machine) : List Moment :=
  r.body p k m.scopes.size body (m.enter f [])

/-- The history of a call with evaluated arguments: one more body is active inside it. -/
def invoke (k f : Nat) (name : Token) (arguments : List Expr) (function : Function)
    (values : List Value) (m : Machine) : List Moment :=
  let inside :=
    if m.depthLimit ≤ m.depth then []
    else
      r.body p (k + 1) m.scopes.size function.body
        (m.call (Parts.bindParameters function.parameters values))
  ⟨k, m, .call f name arguments function values⟩ :: inside

/-- The history of a call by name. -/
def call (k f : Nat) (name : Token) (arguments : List Expr) (m : Machine) : List Moment :=
  let failed (fault : RuntimeFault) (hfault : fault.isLimit = false) (m : Machine) : List Moment :=
    [⟨k, m, .act (.fail ⟨fault, name⟩ hfault)⟩]
  let next (callee : Value) (m : Machine) : List Moment :=
    match callee with
    | .function _ function =>
      if arguments.length ≠ function.parameters.length then
        failed (.arityMismatch function.parameters.length arguments.length) rfl m
      else
        r.each p k f arguments m ++
          following (r.invoke p k f name arguments function) (p.evalEach f arguments m)
    | _ => failed .notCallable rfl m
  ⟨k, m, .act (.lookup f name)⟩ :: following next (Eval.lookup f name m)

end Records

/-- The history of a script. -/
def Script.history {α : Type} (r : Records) (p : Parts) (k : Nat) :
    Script α → Machine → List Moment
  | done _, _ => []
  | exhausted, _ => []
  | act a next, m =>
    ⟨k, m, .act a⟩ :: following (fun v m => (next v).history r p k m) (a.perform m)
  | eval f e next, m =>
    r.eval k f e m ++ following (fun v m => (next v).history r p k m) (p.eval f e m)
  | each f es next, m =>
    r.each p k f es m ++ following (fun vs m => (next vs).history r p k m) (p.evalEach f es m)
  | block f body next, m =>
    r.block p k f body m ++
      following (fun flow m => (next flow).history r p k m) (p.execBlock f body m)
  | call f name arguments next, m =>
    r.call p k f name arguments m ++
      following (fun v m => (next v).history r p k m) (p.call f name arguments m)

/-- The histories of evaluation with a given amount of fuel. -/
def Records.withFuel : Nat → Records
  | 0 => ⟨fun _ _ _ _ => [], fun _ _ _ _ => []⟩
  | fuel + 1 =>
    let r := Records.withFuel fuel
    let p := Parts.withFuel fuel
    ⟨fun k f e m => ⟨k, m, .start f (.expression e)⟩ :: (e.scripted f).script.history r p k m,
      fun k f s m => ⟨k, m, .start f (.statement s)⟩ :: (s.scripted fuel f).script.history r p k m⟩

/-- The history of the statements of a program. -/
def programHistory (fuel : Nat) (program : List Stmt) (m : Machine) : List Moment :=
  (Records.withFuel fuel).body (Parts.withFuel fuel) 0 Machine.globalFrame program m

/-- The history of the run of a source. -/
def Session.history (fuel : Nat) (s : Session) (source : String) : List Moment :=
  if (check source).diagnostics.isEmpty then programHistory fuel (check source).program s.start
  else []

/-- A call is attempted in a state: the name was bound to a function of the right arity, and
evaluating the arguments has led from there to their values in this state. -/
def Attempted (f : Nat) (name : Token) (arguments : List Expr) (function : Function)
    (values : List Value) (m : Machine) : Prop :=
  ∃ fuel before identity,
    before.scopes.lookup f name.lexeme = some (.function identity function) ∧
      arguments.length = function.parameters.length ∧
      (Parts.withFuel fuel).evalEach f arguments before = .ok values m

/-- A result whose state is changed, whether it is a success or not. -/
def Eval.settled {α : Type} (change : Machine → Machine) :
    EStateM.Result Halt Machine α → EStateM.Result Halt Machine α
  | .ok a m => .ok a (change m)
  | .error e m => .error e (change m)

/-- Settling a result settles the state it leaves. -/
theorem Eval.stateAfter_settled {α : Type} (change : Machine → Machine)
    (r : EStateM.Result Halt Machine α) :
    stateAfter (settled change r) = change (stateAfter r) := by
  cases r <;> rfl

/-- An action with a last step runs, then settles however it ended. -/
theorem Eval.thenAlways_apply {α : Type} (action : Eval α) (change : Machine → Machine)
    (m : Machine) : Eval.thenAlways action change m = Eval.settled change (action m) := by
  unfold Eval.thenAlways
  cases action m with
  | ok a m' => rfl
  | error e m' => rfl

/-- A promise about the history and the result of a stretch of a run that starts in some state,
given by what single moments, blocks and bodies promise. -/
structure Chronicle where
  holds {α : Type} : Nat → Machine → List Moment → EStateM.Result Halt Machine α → Prop
  done {α : Type} (k : Nat) (m : Machine) (a : α) : holds k m [] (.ok a m)
  exhausted {α : Type} (k : Nat) (m : Machine) :
    holds k m [] (.error .exhausted m : EStateM.Result Halt Machine α)
  start (k : Nat) (m : Machine) (f : Nat) (part : Part) :
    holds k m [⟨k, m, .start f part⟩] (.ok () m)
  act (k : Nat) (m : Machine) (a : Act) : holds k m [⟨k, m, .act a⟩] (a.perform m)
  append {α β : Type} {k : Nat} {m m' : Machine} {a : α} {h h' : List Moment}
    {r : EStateM.Result Halt Machine β} :
    holds k m h (.ok a m') → holds k m' h' r → holds k m (h ++ h') r
  stop {α β : Type} {k : Nat} {m m' : Machine} {e : Halt} {h : List Moment} :
    holds k m h (.error e m' : EStateM.Result Halt Machine α) →
      holds k m h (.error e m' : EStateM.Result Halt Machine β)
  block {k f : Nat} {m : Machine} {h : List Moment} {r : EStateM.Result Halt Machine Flow} :
    holds k (m.enter f []) h r → holds k m h (Eval.settled (Machine.leave m.scopes.size) r)
  tooDeep {k f : Nat} {m : Machine} {name : Token} {arguments : List Expr} {function : Function}
    {values : List Value} : Attempted f name arguments function values m →
    m.depthLimit ≤ m.depth →
      holds k m [⟨k, m, .call f name arguments function values⟩]
        (.error (.failed ⟨.tooDeep, name⟩) m : EStateM.Result Halt Machine Value)
  call {k f : Nat} {m : Machine} {name : Token} {arguments : List Expr} {function : Function}
    {values : List Value} {h : List Moment} {r : EStateM.Result Halt Machine Flow} :
    Attempted f name arguments function values m → m.depth < m.depthLimit →
      holds (k + 1) (m.call (Parts.bindParameters function.parameters values)) h r →
        holds k m (⟨k, m, .call f name arguments function values⟩ :: h)
          (Eval.settled (Machine.comeBack m.scopes.size) r)

namespace Chronicle

variable {C : Chronicle} {α β : Type} {k f fuel : Nat} {m : Machine}

/-- One action after the other. -/
theorem bind {x : Eval α} {y : α → Eval β} {h : List Moment} {h' : α → Machine → List Moment}
    (hx : C.holds k m h (x m))
    (hy : ∀ a m', x m = .ok a m' → C.holds k m' (h' a m') (y a m')) :
    C.holds k m (h ++ following h' (x m)) ((x >>= y) m) := by
  simp only [Bind.bind, EStateM.bind]
  cases hrun : x m with
  | ok a m' =>
    rw [hrun] at hx
    exact C.append hx (hy a m' hrun)
  | error e m' =>
    rw [hrun] at hx
    rw [following, List.append_nil]
    exact C.stop hx

/-- What is made of the result is no moment. -/
theorem map {x : Eval α} {h : List Moment} (g : α → β) (hx : C.holds k m h (x m)) :
    C.holds k m h ((x >>= fun a => pure (g a)) m) := by
  have hpure (a : α) (m' : Machine) : C.holds k m' [] ((pure (g a) : Eval β) m') :=
    C.done k m' (g a)
  have hnone : following (fun (_ : α) _ => []) (x m) = [] := by cases x m <;> rfl
  rw [← List.append_nil h, ← hnone]
  exact bind hx fun a m' _ => hpure a m'

/-- The histories of parts keep a promise. -/
structure OfParts (C : Chronicle) (fuel : Nat) : Prop where
  eval (k f : Nat) (e : Expr) (m : Machine) :
    C.holds k m ((Records.withFuel fuel).eval k f e m) (Expr.eval fuel f e m)
  exec (k f : Nat) (s : Stmt) (m : Machine) :
    C.holds k m ((Records.withFuel fuel).exec k f s m) (Stmt.exec fuel f s m)

section

variable (hp : C.OfParts fuel)

include hp

/-- A chronicle holds of a sequence of arguments once it holds of each expression. -/
theorem of_each (es : List Expr) (m : Machine) :
    C.holds k m ((Records.withFuel fuel).each (Parts.withFuel fuel) k f es m)
      ((Parts.withFuel fuel).evalEach f es m) := by
  induction es generalizing m with
  | nil => exact C.done k m []
  | cons e es ih => exact bind (hp.eval k f e m) fun v m' _ => map (v :: ·) (ih m')

/-- A chronicle holds of a body once it holds of each statement. -/
theorem of_body (statements : List Stmt) (m : Machine) :
    C.holds k m ((Records.withFuel fuel).body (Parts.withFuel fuel) k f statements m)
      (Eval.untilReturn (Stmt.exec fuel f) statements m) := by
  induction statements generalizing m with
  | nil => exact C.done k m Flow.next
  | cons s rest ih =>
    refine bind (hp.exec k f s m) fun flow m' _ => ?_
    cases flow with
    | next => exact ih m'
    | returned v => exact C.done k m' (Flow.returned v)

/-- A chronicle holds of a block, whose frame is opened and left around the body. -/
theorem of_block (statements : List Stmt) (m : Machine) :
    C.holds k m ((Records.withFuel fuel).block (Parts.withFuel fuel) k f statements m)
      ((Parts.withFuel fuel).execBlock f statements m) := by
  rw [Parts.execBlock_apply, Eval.thenAlways_apply]
  exact C.block (of_body hp statements (m.enter f []))

/-- A chronicle holds of an attempted call, at the limit and below it. -/
theorem of_invoke {name : Token} {arguments : List Expr} {function : Function}
    {values : List Value} {m : Machine}
    (hattempted : Attempted f name arguments function values m) :
    C.holds k m
      ((Records.withFuel fuel).invoke (Parts.withFuel fuel) k f name arguments function values m)
      ((Parts.withFuel fuel).invoke name function values m) := by
  rw [Parts.invoke_apply, Records.invoke]
  by_cases hdeep : m.depthLimit ≤ m.depth
  · simp only [if_pos hdeep]
    exact C.tooDeep hattempted hdeep
  · simp only [if_neg hdeep]
    let inside := m.call (Parts.bindParameters function.parameters values)
    have hbody := of_body hp (k := k + 1) (f := m.scopes.size) function.body inside
    have hcall := C.call hattempted (Nat.not_le.mp hdeep) hbody
    rw [← Eval.thenAlways_apply] at hcall
    exact map (x := (Parts.withFuel fuel).runBody function values) Flow.result hcall

/-- A chronicle holds of a call, whether it fails on its callee or is attempted. -/
theorem of_call (name : Token) (arguments : List Expr) (m : Machine) :
    C.holds k m ((Records.withFuel fuel).call (Parts.withFuel fuel) k f name arguments m)
      ((Parts.withFuel fuel).call f name arguments m) := by
  have hfail (fault : RuntimeFault) (hfault : fault.isLimit = false) (m' : Machine) :
      C.holds k m' [⟨k, m', .act (.fail ⟨fault, name⟩ hfault)⟩]
        ((Eval.fail fault name : Eval Value) m') :=
    C.stop (C.act k m' (.fail ⟨fault, name⟩ hfault))
  refine bind (C.act k m (.lookup f name)) fun callee m' hlookup => ?_
  cases callee with
  | function identity function =>
    simp only
    split
    · exact hfail _ rfl m'
    next harity =>
      refine bind (of_each hp arguments m') fun values m'' heach => ?_
      -- All that a call needs is there, so this is an attempt.
      refine of_invoke hp ⟨fuel, m', identity, ?_, Decidable.not_not.mp harity, heach⟩
      change Eval.lookup f name m = _ at hlookup
      rw [Eval.lookup_apply] at hlookup
      split at hlookup
      next hfound =>
        cases hlookup
        exact hfound
      next => cases hlookup
  | _ => exact hfail _ rfl m'

/-- A chronicle holds of a whole script, by induction on the script. -/
theorem of_script (s : Script α) (m : Machine) :
    C.holds k m (s.history (Records.withFuel fuel) (Parts.withFuel fuel) k m)
      (s.run (Parts.withFuel fuel) m) := by
  induction s generalizing m with
  | done a => exact C.done k m a
  | exhausted => exact C.exhausted k m
  | act a next ih => exact bind (C.act k m a) fun v m' _ => ih v m'
  | eval f e next ih => exact bind (hp.eval k f e m) fun v m' _ => ih v m'
  | each f es next ih => exact bind (of_each hp es m) fun vs m' _ => ih vs m'
  | block f body next ih => exact bind (of_block hp body m) fun flow m' _ => ih flow m'
  | call f name arguments next ih =>
    exact bind (of_call hp name arguments m) fun v m' _ => ih v m'

end

/-- The history of every evaluation keeps every promise. -/
theorem ofParts (C : Chronicle) (fuel : Nat) : C.OfParts fuel := by
  induction fuel with
  | zero => exact ⟨fun k _ _ m => C.exhausted k m, fun k _ _ m => C.exhausted k m⟩
  | succ fuel ih =>
    -- The script of a form has its parts evaluated with one unit of fuel less.
    refine ⟨fun k f e m => ?_, fun k f s m => ?_⟩
    · have hscript := of_script ih (k := k) (e.scripted f).script m
      rw [(e.scripted f).run_eq] at hscript
      exact C.append (C.start k m f (.expression e)) hscript
    · have hscript := of_script ih (k := k) (s.scripted fuel f).script m
      rw [(s.scripted fuel f).run_eq] at hscript
      exact C.append (C.start k m f (.statement s)) hscript

/-- A chronicle holds of a program run from the global frame. -/
theorem ofProgram (C : Chronicle) (fuel : Nat) (program : List Stmt) (m : Machine) :
    C.holds 0 m (programHistory fuel program m) (runProgram fuel program m) :=
  of_body (C.ofParts fuel) program m

end Chronicle

end Offside
