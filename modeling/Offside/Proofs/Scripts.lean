import Offside.Proofs.Transitions
import Offside.Proofs.Values

/-!
# Scripts of evaluation

Every form of expression and statement does some elementary things and has parts evaluated in
between. Its script lists them as data, each with what follows for every answer. A script comes with
the proof that running it is evaluating the form, so that whatever is shown by induction on scripts
holds of evaluation itself.
-/

namespace Offside

/-- Something elementary that a running program does. -/
inductive Act where
  | lookup (frame : Nat) (name : Token)
  | assign (frame : Nat) (name : Token) (value : Value)
  | issue
  | print (keyword : Token) (line : String)
  /-- The program fails by itself, and not because of a limit of the machine. -/
  | fail (e : RuntimeError) (hfault : e.fault.isLimit = false)

/-- What an act yields; a failure yields nothing. -/
def Act.Answer : Act → Type
  | lookup _ _ => Value
  | assign _ _ _ => Unit
  | issue => Nat
  | print _ _ => Unit
  | fail _ _ => Empty

/-- An act as an action of the running program. -/
def Act.perform : (a : Act) → Eval a.Answer
  | lookup frame name => Eval.lookup frame name
  | assign frame name value => Eval.assign frame name value
  | issue => Eval.fresh
  | print keyword line => Eval.print keyword line
  | fail e _ => throw (.failed e)

/-- What a form does, step by step. -/
inductive Script (α : Type) where
  | done (a : α)
  | exhausted
  | act (a : Act) (next : a.Answer → Script α)
  | eval (frame : Nat) (e : Expr) (next : Value → Script α)
  | each (frame : Nat) (es : List Expr) (next : List Value → Script α)
  | block (frame : Nat) (body : List Stmt) (next : Flow → Script α)
  | call (frame : Nat) (name : Token) (arguments : List Expr) (next : Value → Script α)

namespace Script

variable {α β : Type}

/-- One script after the other. -/
def bind (k : α → Script β) : Script α → Script β
  | done a => k a
  | exhausted => exhausted
  | act a next => act a fun v => (next v).bind k
  | eval f e next => eval f e fun v => (next v).bind k
  | each f es next => each f es fun vs => (next vs).bind k
  | block f body next => block f body fun flow => (next flow).bind k
  | call f name arguments next => call f name arguments fun v => (next v).bind k

/-- Runs a script over the evaluation of parts. -/
def run (p : Parts) : Script α → Eval α
  | done a => pure a
  | exhausted => Eval.exhausted
  | act a next => a.perform >>= fun v => (next v).run p
  | eval f e next => p.eval f e >>= fun v => (next v).run p
  | each f es next => p.evalEach f es >>= fun vs => (next vs).run p
  | block f body next => p.execBlock f body >>= fun flow => (next flow).run p
  | call f name arguments next => p.call f name arguments >>= fun v => (next v).run p

/-- Running a sequence runs its scripts in order. -/
theorem run_bind (p : Parts) (k : α → Script β) (s : Script α) :
    (s.bind k).run p = s.run p >>= fun a => (k a).run p := by
  induction s with
  | done a => simp only [bind, run, pure_bind]
  | exhausted => rfl
  | act a next ih => simp only [bind, run, bind_assoc, ih]
  | eval f e next ih => simp only [bind, run, bind_assoc, ih]
  | each f es next ih => simp only [bind, run, bind_assoc, ih]
  | block f body next ih => simp only [bind, run, bind_assoc, ih]
  | call f name arguments next ih => simp only [bind, run, bind_assoc, ih]

end Script

/-- A script of an action that is written over the evaluation of parts. -/
structure Scripted {α : Type} (action : Parts → Eval α) where
  script : Script α
  run_eq (p : Parts) : script.run p = action p

namespace Scripted

variable {α β : Type}

/-- Giving a value is scripted. -/
def pure (a : α) : Scripted fun _ => Pure.pure a := ⟨.done a, fun _ => rfl⟩

/-- Scripted actions may follow each other. -/
def bind {x : Parts → Eval α} {k : α → Parts → Eval β} (s : Scripted x)
    (next : (a : α) → Scripted (k a)) : Scripted fun p => x p >>= fun a => k a p where
  script := s.script.bind fun a => (next a).script
  run_eq p := by simp only [Script.run_bind, s.run_eq, (next _).run_eq]

/-- A case distinction that the parts have no influence on. -/
def ite {c : Prop} [Decidable c] {x y : Parts → Eval α} (s : Scripted x) (t : Scripted y) :
    Scripted fun p => if c then x p else y p where
  script := if c then s.script else t.script
  run_eq p := by
    split
    · exact s.run_eq p
    · exact t.run_eq p

/-- A scripted action may be written otherwise. -/
def ofEq {x y : Parts → Eval α} (s : Scripted x) (h : ∀ p, x p = y p) : Scripted y :=
  ⟨s.script, fun p => (s.run_eq p).trans (h p)⟩

/-! ## Elementary actions -/

/-- Every act is scripted. -/
def act (a : Act) : Scripted fun _ => a.perform := ⟨.act a .done, fun _ => bind_pure _⟩

/-- Running out of fuel is scripted. -/
def exhausted : Scripted fun _ => (Eval.exhausted : Eval α) := ⟨.exhausted, fun _ => rfl⟩

/-- A failure by values is scripted. -/
def fail (fault : RuntimeFault) (token : Token) (hfault : fault.isLimit = false) :
    Scripted fun _ => (Eval.fail fault token : Eval α) :=
  ⟨.act (.fail ⟨fault, token⟩ hfault) nofun, fun _ => rfl⟩

/-- An operation on values; a fault is blamed on a token. -/
def ofExcept (token : Token) : (r : Except RuntimeFault α) → (hr : FailsByValues r) →
    Scripted fun _ => Eval.ofExcept (r.mapError (⟨·, token⟩))
  | .ok a, _ => pure a
  | .error fault, hfault => fail fault token hfault

/-- A lookup is scripted. -/
def lookup (f : Nat) (name : Token) : Scripted fun _ => Eval.lookup f name := act (.lookup f name)

/-- An assignment is scripted. -/
def assign (f : Nat) (name : Token) (v : Value) : Scripted fun _ => Eval.assign f name v :=
  act (.assign f name v)

/-- Making a list is scripted. -/
def newList (items : List Value) : Scripted fun _ => Eval.newList items :=
  (act .issue).bind fun i => pure (Value.list i items)

/-- Making a function is scripted. -/
def newFunction (definition : Function) : Scripted fun _ => Eval.newFunction definition :=
  (act .issue).bind fun i => pure (Value.function i definition)

/-- Printing is scripted. -/
def print (keyword : Token) (line : String) : Scripted fun _ => Eval.print keyword line :=
  act (.print keyword line)

/-! ## Parts -/

/-- Evaluating an expression is scripted. -/
def eval (f : Nat) (e : Expr) : Scripted fun p => p.eval f e :=
  ⟨.eval f e .done, fun _ => bind_pure _⟩

/-- Evaluating arguments is scripted. -/
def each (f : Nat) (es : List Expr) : Scripted fun p => p.evalEach f es :=
  ⟨.each f es .done, fun _ => bind_pure _⟩

/-- Executing a block is scripted. -/
def block (f : Nat) (body : List Stmt) : Scripted fun p => p.execBlock f body :=
  ⟨.block f body .done, fun _ => bind_pure _⟩

/-- A call is scripted. -/
def call (f : Nat) (name : Token) (arguments : List Expr) :
    Scripted fun p => p.call f name arguments :=
  ⟨.call f name arguments .done, fun _ => bind_pure _⟩

/-- Evaluating a position is scripted. -/
def position (f : Nat) (name : Token) (e : Expr) : Scripted fun p => p.position f name e :=
  (eval f e).bind fun v =>
    match Selection.position? v with
    | some i => pure i
    | none => fail .invalidIndex name rfl

/-- Evaluating a bound is scripted. -/
def bound (f : Nat) (name : Token) (e : Expr) : Scripted fun p => p.bound f name e :=
  (eval f e).bind fun v =>
    match v with
    | .number x => pure x
    | .string _ | .boolean _ | .none | .list _ _ | .function _ _ => fail .invalidRangeBound name rfl

/-- Evaluating a bound that may be left out is scripted. -/
def boundOr (f : Nat) (name : Token) (otherwise : Float) :
    (e : Option Expr) → Scripted fun p => p.boundOr f name otherwise e
  | none => pure otherwise
  | some e => bound f name e

/-! ## Loops -/

/-- A loop over elements is scripted if its rounds are. -/
def untilReturn {action : α → Parts → Eval Flow} (s : (a : α) → Scripted (action a)) :
    (as : List α) → Scripted fun p => Eval.untilReturn (action · p) as
  | [] => pure Flow.next
  | a :: as => (s a).bind fun flow =>
    match flow with
    | .next => untilReturn s as
    | .returned v => pure (Flow.returned v)

/-- A while loop is scripted if its rounds are. -/
def whileTrue {condition : Parts → Eval Bool} {action : Parts → Eval Flow}
    (s : Scripted condition) (t : Scripted action) :
    (fuel : Nat) → Scripted fun p => Eval.whileTrue (condition p) (action p) fuel
  | 0 => exhausted
  | fuel + 1 => s.bind fun go =>
    ite (c := go) (t.bind fun flow =>
      match flow with
      | .next => whileTrue s t fuel
      | .returned v => pure (Flow.returned v)) (pure Flow.next)

/-- A counting loop is scripted if its rounds are. -/
def forNumbers (stop step : Float) {action : Float → Parts → Eval Flow}
    (s : (i : Float) → Scripted (action i)) :
    (i : Float) → (fuel : Nat) → Scripted fun p => Eval.forNumbers stop step (action · p) i fuel
  | _, 0 => exhausted
  | i, fuel + 1 =>
    ite ((s i).bind fun flow =>
      match flow with
      | .next => forNumbers stop step s (i + step) fuel
      | .returned v => pure (Flow.returned v)) (pure Flow.next)

/-- A round of a loop that assigns its variable and executes a block. -/
def round (f : Nat) (name : Token) (body : List Stmt) (v : Value) :
    Scripted fun p => (do Eval.assign f name v; p.execBlock f body : Eval Flow) :=
  (assign f name v).bind fun _ => block f body

/-! ## Selections -/

/-- An operation that may fail, and what follows its success. -/
def attempt {x : α → Parts → Eval β} (r : Except RuntimeFault α) (hr : FailsByValues r)
    (name : Token) (s : (a : α) → Scripted (x a)) :
    Scripted fun p => match r with | .ok a => x a p | .error fault => Eval.fail fault name :=
  match r, hr with
  | .ok a, _ => s a
  | .error fault, hfault => fail fault name hfault

/-- Selecting an element is scripted. -/
def element (name : Token) (position : Int) :
    (target : Value) → Scripted fun _ => Value.element name target position
  | .list _ items => ofExcept name (Selection.element items position) (failsByValues_element ..)
  | .string contents =>
    (attempt (Selection.element contents.toList position) (failsByValues_element ..) name fun c =>
      pure (Value.string (String.singleton c))).ofEq fun _ => by
        rw [Value.element]
        cases Selection.element contents.toList position <;> rfl
  | .number _ | .boolean _ | .none | .function _ _ => fail .notIndexable name rfl

/-- Slicing is scripted. -/
def slice (name : Token) (start stop step : Int) :
    (target : Value) → Scripted fun _ => Value.slice name target start stop step
  | .list _ items =>
    (attempt (Selection.slice items start stop step) (failsByValues_slice ..) name
      newList).ofEq fun _ => by
        rw [Value.slice]
        cases Selection.slice items start stop step <;> rfl
  | .string contents =>
    (attempt (Selection.slice contents.toList start stop step) (failsByValues_slice ..) name
      fun found => pure (Value.string (String.ofList found))).ofEq fun _ => by
        rw [Value.slice]
        cases Selection.slice contents.toList start stop step <;> rfl
  | .number _ | .boolean _ | .none | .function _ _ => fail .notIndexable name rfl

end Scripted

/-! ## Expressions and statements -/

/-- The script of an expression. -/
def Expr.scripted (f : Nat) : (e : Expr) → Scripted fun p => e.evalWith p f
  | .literal value => .pure (Value.ofLiteral value)
  | .variable name => .lookup f name
  | .grouping inner => .eval f inner
  | .unary operator operand =>
    (Scripted.eval f operand).bind fun v =>
      .ofExcept operator (Value.unaryFault operator.kind v) (failsByValues_unaryFault ..)
  | .binary left operator right =>
    (Scripted.eval f left).bind fun v => (Scripted.eval f right).bind fun w =>
      .ofExcept operator (Value.binaryFault operator.kind v w) (failsByValues_binaryFault ..)
  | .logical left operator right =>
    (Scripted.eval f left).bind fun v => .ite (c := v.decides operator) (.pure v) (.eval f right)
  | .assign name value =>
    (Scripted.eval f value).bind fun v => (Scripted.assign f name v).bind fun _ => .pure v
  | .list items => (Scripted.each f items).bind fun vs => .newList vs
  | .element name position =>
    (Scripted.lookup f name).bind fun target =>
      (Scripted.position f name position).bind fun i => .element name i target
  | .slice name start stop =>
    (Scripted.lookup f name).bind fun target =>
      (Scripted.position f name start).bind fun i =>
        (Scripted.position f name stop).bind fun j => .slice name i j 1 target
  | .stride name start stop step =>
    (Scripted.lookup f name).bind fun target =>
      (Scripted.position f name start).bind fun i =>
        (Scripted.position f name stop).bind fun j =>
          (Scripted.position f name step).bind fun k => .slice name i j k target
  | .call name arguments => .call f name arguments

/-- The script of the further clauses of a branch. -/
def Alternative.scripted (f : Nat) : (a : Alternative) → Scripted fun p => a.execWith p f
  | .nothing => .pure Flow.next
  | .another condition body otherwise =>
    (Scripted.eval f condition).bind fun _ => .ite (.block f body) (otherwise.scripted f)
  | .last body => .block f body

/-- The script of a statement. -/
def Stmt.scripted (fuel f : Nat) : (s : Stmt) → Scripted fun p => s.execWith fuel p f
  | .expression value => (Scripted.eval f value).bind fun _ => .pure Flow.next
  | .print keyword value =>
    (Scripted.eval f value).bind fun v =>
      (Scripted.print keyword v.text).bind fun _ => .pure Flow.next
  | .assign name value =>
    (Scripted.eval f value).bind fun v => (Scripted.assign f name v).bind fun _ => .pure Flow.next
  | .block body => .block f body
  | .branch condition body otherwise =>
    (Scripted.eval f condition).bind fun _ => .ite (.block f body) (otherwise.scripted f)
  | .loop condition body =>
    let condition := ((Scripted.eval f condition).bind fun v => .pure v.isTruthy).ofEq
      (y := fun p => Value.isTruthy <$> p.eval f condition) fun _ => (map_eq_pure_bind _ _).symm
    .whileTrue condition (.block f body) fuel
  | .forRange name start stop step body =>
    (Scripted.boundOr f name 0.0 start).bind fun i =>
      (Scripted.bound f name stop).bind fun j =>
        (Scripted.boundOr f name 1.0 step).bind fun k =>
          .ite (.fail .zeroRangeStep name rfl)
            (.forNumbers j k (fun x => .round f name body (.number x)) i fuel)
  | .forEach name iterable body =>
    (Scripted.eval f iterable).bind fun v =>
      match v.elements? with
      | none => .fail .notIterable name rfl
      | some items => .untilReturn (.round f name body) items
  | .define name parameters body =>
    (Scripted.newFunction ⟨name, parameters, body⟩).bind fun v =>
      (Scripted.assign f name v).bind fun _ => .pure Flow.next
  | .return _ none => .pure (Flow.returned .none)
  | .return _ (some e) => (Scripted.eval f e).bind fun v => .pure (Flow.returned v)

end Offside
