import Offside.Proofs.Transitions
import Offside.Proofs.Values

/-!
# Contracts of evaluation

A contract says three things about a running program: a condition that its states satisfy, how the
state may change while something is evaluated in a frame, and what is known about the values at
hand. Whatever the elementary actions promise, every evaluation promises: the forms of expressions
and statements are gone through once here, and the recursion is tied by induction on the fuel.
-/

namespace Offside

/-- A promise about evaluation, given by what the elementary actions promise. -/
structure Contract where
  /-- The condition on states. -/
  holds : Machine → Prop
  /-- How the state may change while something is evaluated in a frame. -/
  allows : Nat → Machine → Machine → Prop
  /-- What is known about a value in a state. -/
  knows : Machine → Value → Prop
  refl {f : Nat} {m : Machine} : allows f m m
  trans {f : Nat} {m m' m'' : Machine} : allows f m m' → allows f m' m'' → allows f m m''
  knows_mono {f : Nat} {m m' : Machine} {v : Value} : allows f m m' → knows m v → knows m' v
  knows_plain {m : Machine} {v : Value} : v.isPlain → knows m v
  knows_item {m : Machine} {i : Nat} {items : List Value} {v : Value} :
    knows m (.list i items) → v ∈ items → knows m v
  knows_list {m : Machine} {items : List Value} :
    (∀ v ∈ items, knows m v) → knows m.issue (.list m.nextIdentity items)
  knows_function {m : Machine} (definition : Function) :
    knows m.issue (.function m.nextIdentity definition)
  knows_leave {m : Machine} {v : Value} (size : Nat) : knows m v → knows (m.leave size) v
  knows_comeBack {m : Machine} {v : Value} (size : Nat) : knows m v → knows (m.comeBack size) v
  lookup {f : Nat} {m : Machine} {name : String} {v : Value} :
    holds m → m.scopes.lookup f name = some v → knows m v
  assign {f : Nat} {m : Machine} {v : Value} (name : String) :
    holds m → knows m v → holds (m.assign f name v) ∧ allows f m (m.assign f name v)
  issue (f : Nat) {m : Machine} : holds m → holds m.issue ∧ allows f m m.issue
  print (f : Nat) {m : Machine} (sink : Sink) :
    holds m → holds { m with sink } ∧ allows f m { m with sink }
  enter (f : Nat) {m : Machine} : holds m → holds (m.enter f [])
  leave {f : Nat} {m m' : Machine} : holds m → holds m' →
    allows m.scopes.size (m.enter f []) m' →
    holds (m'.leave m.scopes.size) ∧ allows f m (m'.leave m.scopes.size)
  call {m : Machine} {bindings : Bindings} :
    holds m → (∀ v ∈ bindings.map Prod.snd, knows m v) → holds (m.call bindings)
  comeBack (f : Nat) {m m' : Machine} {bindings : Bindings} : holds m → holds m' →
    allows m.scopes.size (m.call bindings) m' →
    holds (m'.comeBack m.scopes.size) ∧ allows f m (m'.comeBack m.scopes.size)

namespace Contract

variable {C : Contract} {f : Nat} {α β : Type}

/-- A result that a contract accepts: an allowed change, and for a success also `Q`. -/
def Accepts (C : Contract) (f : Nat) (m : Machine) (Q : Machine → α → Prop) :
    EStateM.Result Halt Machine α → Prop
  | .ok a m' => (C.holds m' ∧ C.allows f m m') ∧ Q m' a
  | .error _ m' => C.holds m' ∧ C.allows f m m'

/-- An action keeps a contract: started where the condition and `P` hold, it makes only allowed
changes, and what it yields satisfies `Q`. -/
def Keeps (C : Contract) (f : Nat) (P : Machine → Prop) (action : Eval α)
    (Q : Machine → α → Prop) : Prop :=
  ∀ m, C.holds m → P m → C.Accepts f m Q (action m)

/-- A condition that allowed changes preserve. -/
def Stable (C : Contract) (f : Nat) (P : Machine → Prop) : Prop :=
  ∀ ⦃m m'⦄, C.allows f m m' → P m → P m'

/-- What is known of the result of a statement: the value that it returns is known. -/
def knowsFlow (C : Contract) (m : Machine) (flow : Flow) : Prop := C.knows m flow.result

/-! ## Combining actions -/

/-- A kept contract holds in the state behind an action, however the action ends. -/
theorem Keeps.result {P : Machine → Prop} {action : Eval α} {Q : Machine → α → Prop} {m : Machine}
    (h : C.Keeps f P action Q) (hm : C.holds m) (hP : P m) :
    C.holds (Eval.stateAfter (action m)) ∧ C.allows f m (Eval.stateAfter (action m)) := by
  have := h m hm hP
  cases haction : action m with
  | ok a m' =>
    rw [haction] at this
    exact this.1
  | error e m' =>
    rw [haction] at this
    exact this

/-- The condition in front may be stronger and the one behind weaker. -/
theorem Keeps.mono {P P' : Machine → Prop} {action : Eval α} {Q Q' : Machine → α → Prop}
    (h : C.Keeps f P action Q) (hP : ∀ m, C.holds m → P' m → P m)
    (hQ : ∀ m a, Q m a → Q' m a) : C.Keeps f P' action Q' := by
  intro m hm hP'
  have := h m hm (hP m hm hP')
  cases haction : action m with
  | ok a m' =>
    rw [haction] at this
    exact ⟨this.1, hQ m' a this.2⟩
  | error e m' =>
    rw [haction] at this
    exact this

/-- Nothing happens in a pure action. -/
theorem Keeps.pure {P : Machine → Prop} {a : α} {Q : Machine → α → Prop} (h : ∀ m, P m → Q m a) :
    C.Keeps f P (Pure.pure a) Q :=
  fun m hm hP => ⟨⟨hm, C.refl⟩, h m hP⟩

/-- Nothing happens in an action that stops at once. -/
theorem Keeps.throw {P : Machine → Prop} {Q : Machine → α → Prop} (halt : Halt) :
    C.Keeps f P (MonadExcept.throw halt) Q :=
  fun _ hm _ => ⟨hm, C.refl⟩

/-- Of two actions the second one starts with what is known behind the first. -/
theorem Keeps.bind {P : Machine → Prop} {x : Eval α} {Q : Machine → α → Prop} {k : α → Eval β}
    {R : Machine → β → Prop} (hx : C.Keeps f P x Q)
    (hk : ∀ a, C.Keeps f (Q · a) (k a) R) : C.Keeps f P (x >>= k) R := by
  intro m hm hP
  have h := hx m hm hP
  simp only [Bind.bind, EStateM.bind]
  cases hxm : x m with
  | error e m' =>
    rw [hxm] at h
    exact h
  | ok a m' =>
    rw [hxm] at h
    obtain ⟨⟨hm', hstep⟩, hQ⟩ := h
    have h' := hk a m' hm' hQ
    simp only
    cases hka : k a m' with
    | error e m'' =>
      rw [hka] at h'
      exact ⟨h'.1, C.trans hstep h'.2⟩
    | ok b m'' =>
      rw [hka] at h'
      exact ⟨⟨h'.1.1, C.trans hstep h'.1.2⟩, h'.2⟩

/-- A stable condition holds on while an action runs. -/
theorem Keeps.frame {P R : Machine → Prop} {action : Eval α} {Q : Machine → α → Prop}
    (h : C.Keeps f P action Q) (hR : C.Stable f R) :
    C.Keeps f (fun m => P m ∧ R m) action (fun m a => Q m a ∧ R m) := by
  intro m hm hP
  have := h m hm hP.1
  cases haction : action m with
  | ok a m' =>
    rw [haction] at this
    exact ⟨this.1, this.2, hR this.1.2 hP.2⟩
  | error e m' =>
    rw [haction] at this
    exact this

/-- What is known about a value stays known. -/
theorem stable_knows (v : Value) : C.Stable f (C.knows · v) :=
  fun _ _ hstep hv => C.knows_mono hstep hv

/-- An action that keeps a contract whatever held before. -/
abbrev Yields (C : Contract) (f : Nat) (action : Eval α) (Q : Machine → α → Prop) : Prop :=
  C.Keeps f (fun _ => True) action Q

/-- An action that needs no condition keeps the contract under any. -/
theorem Yields.of {P : Machine → Prop} {action : Eval α} {Q : Machine → α → Prop}
    (h : C.Yields f action Q) : C.Keeps f P action Q :=
  h.mono (fun _ _ _ => trivial) fun _ _ hQ => hQ

/-- A stable condition holds on behind an action that needs nothing. -/
theorem Yields.frame {R : Machine → Prop} {action : Eval α} {Q : Machine → α → Prop}
    (h : C.Yields f action Q) (hR : C.Stable f R) :
    C.Keeps f R action (fun m a => Q m a ∧ R m) :=
  (Keeps.frame h hR).mono (fun _ _ hm => ⟨trivial, hm⟩) fun _ _ hQ => hQ

/-! ## Elementary actions -/

/-- A fault changes nothing. -/
theorem keeps_fail {P : Machine → Prop} {Q : Machine → α → Prop} (fault : RuntimeFault)
    (token : Token) : C.Keeps f P (Eval.fail fault token) Q :=
  Keeps.throw _

/-- A value that is looked up is known. -/
theorem yields_lookup (name : Token) : C.Yields f (Eval.lookup f name) C.knows := by
  intro m hm _
  rw [Eval.lookup_apply]
  cases hlookup : m.scopes.lookup f name.lexeme with
  | none => exact ⟨hm, C.refl⟩
  | some v => exact ⟨⟨hm, C.refl⟩, C.lookup hm hlookup⟩

/-- A known value may be assigned. -/
theorem keeps_assign (name : Token) (v : Value) :
    C.Keeps f (C.knows · v) (Eval.assign f name v) (fun m _ => C.knows m v) := by
  intro m hm hv
  have h := C.assign (f := f) name.lexeme hm hv
  exact ⟨h, C.knows_mono h.2 hv⟩

/-- A list of known values is known. -/
theorem keeps_newList (items : List Value) :
    C.Keeps f (fun m => ∀ v ∈ items, C.knows m v) (Eval.newList items) C.knows :=
  fun _ hm hitems => ⟨C.issue f hm, C.knows_list hitems⟩

/-- A new function is known. -/
theorem yields_newFunction (definition : Function) :
    C.Yields f (Eval.newFunction definition) C.knows :=
  fun _ hm _ => ⟨C.issue f hm, C.knows_function definition⟩

/-- Printing is allowed. -/
theorem yields_print (keyword : Token) (line : String) :
    C.Yields f (Eval.print keyword line) (fun _ _ => True) := by
  intro m hm _
  simp only [Eval.print]
  rcases m.sink.writeLine line with ⟨_ | _, sink⟩
  · exact C.print f sink hm
  · exact ⟨C.print f sink hm, trivial⟩

/-- A computed result is judged in the state in which it is computed. -/
theorem keeps_ofExcept {P : Machine → Prop} {Q : Machine → α → Prop}
    {result : Except RuntimeError α} (h : ∀ m a, P m → result = .ok a → Q m a) :
    C.Keeps f P (Eval.ofExcept result) Q := by
  cases result with
  | error e => exact Keeps.throw _
  | ok a => exact Keeps.pure fun m hP => h m a hP rfl

/-! ## Loops -/

/-- A loop over elements keeps a contract if every round does. What the rounds need to know about
their elements has to be stable, because earlier rounds change the state. -/
theorem keeps_untilReturn {R : Machine → α → Prop} {action : α → Eval Flow} (elements : List α)
    (hstable : ∀ a, C.Stable f (R · a)) (h : ∀ a, C.Keeps f (R · a) (action a) C.knowsFlow) :
    C.Keeps f (fun m => ∀ a ∈ elements, R m a) (Eval.untilReturn action elements) C.knowsFlow := by
  induction elements with
  | nil => exact Keeps.pure fun m _ => C.knows_plain rfl
  | cons a rest ih =>
    have hrest : C.Stable f (fun m => ∀ b ∈ rest, R m b) :=
      fun _ _ hstep hR b hb => hstable b hstep (hR b hb)
    have hround : C.Keeps f (fun m => ∀ b ∈ a :: rest, R m b) (action a) _ :=
      ((h a).frame hrest).mono
        (fun m _ hR => ⟨hR a (by simp), fun b hb => hR b (by simp [hb])⟩) fun _ _ hQ => hQ
    rw [Eval.untilReturn]
    refine hround.bind fun flow => ?_
    cases flow with
    | next => exact ih.mono (fun m _ hQ => hQ.2) fun _ _ hQ => hQ
    | returned v => exact Keeps.pure fun m hQ => hQ.1

/-- Going through elements keeps the contract if every round does. -/
theorem yields_untilReturn {action : α → Eval Flow} (elements : List α)
    (h : ∀ a, C.Yields f (action a) C.knowsFlow) :
    C.Yields f (Eval.untilReturn action elements) C.knowsFlow :=
  (keeps_untilReturn (R := fun _ _ => True) elements (fun _ _ _ _ _ => trivial) h).mono
    (fun _ _ _ _ _ => trivial) fun _ _ hQ => hQ

/-- A while loop keeps the contract if its condition and its body do, round after round. -/
theorem yields_whileTrue {condition : Eval Bool} {action : Eval Flow} (fuel : Nat)
    (hcondition : C.Yields f condition (fun _ _ => True))
    (haction : C.Yields f action C.knowsFlow) :
    C.Yields f (Eval.whileTrue condition action fuel) C.knowsFlow := by
  induction fuel with
  | zero => exact Keeps.throw _
  | succ fuel ih =>
    rw [Eval.whileTrue]
    refine hcondition.bind fun go => ?_
    cases go with
    | false => exact Keeps.pure fun m _ => C.knows_plain rfl
    | true =>
      refine haction.bind fun flow => ?_
      cases flow with
      | next => exact Yields.of ih
      | returned v => exact Keeps.pure fun m hQ => hQ

/-- A counting loop keeps the contract if its body does for every number. -/
theorem yields_forNumbers {stop step : Float} {action : Float → Eval Flow} (i : Float) (fuel : Nat)
    (haction : ∀ i, C.Yields f (action i) C.knowsFlow) :
    C.Yields f (Eval.forNumbers stop step action i fuel) C.knowsFlow := by
  induction fuel generalizing i with
  | zero => exact Keeps.throw _
  | succ fuel ih =>
    rw [Eval.forNumbers]
    split
    · refine (haction i).bind fun flow => ?_
      cases flow with
      | next => exact Yields.of (ih _)
      | returned v => exact Keeps.pure fun m hQ => hQ
    · exact Keeps.pure fun m _ => C.knows_plain rfl

/-! ## Blocks and calls -/

/-- The parts of an expression or statement keep a contract. -/
structure OfParts (C : Contract) (p : Parts) : Prop where
  eval (f : Nat) (e : Expr) : C.Yields f (p.eval f e) C.knows
  exec (f : Nat) (s : Stmt) : C.Yields f (p.exec f s) C.knowsFlow

variable {p : Parts}

/-- Expressions that are evaluated one after the other have known values. -/
theorem yields_evalEach (hp : C.OfParts p) (es : List Expr) :
    C.Yields f (p.evalEach f es) (fun m vs => ∀ v ∈ vs, C.knows m v) := by
  induction es with
  | nil => exact Keeps.pure fun m _ => by simp
  | cons e es ih =>
    rw [Parts.evalEach]
    refine (hp.eval f e).bind fun v => ?_
    refine (Yields.frame ih (stable_knows v)).bind fun vs => ?_
    exact Keeps.pure fun m h => List.forall_mem_cons.mpr ⟨h.2, h.1⟩

/-- The statements of a block keep the contract one after the other. -/
theorem yields_execBlock (hp : C.OfParts p) (body : List Stmt) :
    C.Yields f (p.execBlock f body) C.knowsFlow := by
  intro m hm _
  have h := yields_untilReturn body (hp.exec m.scopes.size) (m.enter f []) (C.enter f hm) trivial
  rw [Parts.execBlock_apply]
  apply Eval.thenAlways_cases
  · intro flow m' hrun
    rw [hrun] at h
    exact ⟨C.leave hm h.1.1 h.1.2, C.knows_leave _ h.2⟩
  · intro e m' hrun
    rw [hrun] at h
    exact C.leave hm h.1 h.2

/-- A function body keeps the contract in a frame of its own, which starts with the known arguments.
-/
theorem yields_runBody (hp : C.OfParts p) (function : Function) (values : List Value) :
    C.Keeps f (fun m => ∀ v ∈ values, C.knows m v) (p.runBody function values) C.knowsFlow := by
  intro m hm hvalues
  have hbound : ∀ v ∈ (Parts.bindParameters function.parameters values).map Prod.snd, C.knows m v :=
    fun v hv => hvalues v (Parts.snd_mem_bindParameters hv)
  have h := yields_untilReturn function.body (hp.exec m.scopes.size) _ (C.call hm hbound) trivial
  apply Eval.thenAlways_cases
  · intro flow m' hrun
    rw [hrun] at h
    exact ⟨C.comeBack f hm h.1.1 h.1.2, C.knows_comeBack _ h.2⟩
  · intro e m' hrun
    rw [hrun] at h
    exact C.comeBack f hm h.1 h.2

/-- So does an invocation, which only counts the body besides. -/
theorem keeps_invoke (hp : C.OfParts p) (name : Token) (function : Function) (values : List Value) :
    C.Keeps f (fun m => ∀ v ∈ values, C.knows m v) (p.invoke name function values) C.knows := by
  intro m hm hvalues
  rw [Parts.invoke_apply]
  split
  · exact ⟨hm, C.refl⟩
  · have hresult (flow : Flow) : C.Keeps f (C.knowsFlow · flow) (Pure.pure flow.result) C.knows :=
      Keeps.pure fun _ h => h
    exact (yields_runBody hp function values).bind hresult m hm hvalues

/-- A call evaluates its arguments before it invokes the function. -/
theorem yields_call (hp : C.OfParts p) (name : Token) (arguments : List Expr) :
    C.Yields f (p.call f name arguments) C.knows := by
  refine (yields_lookup name).bind fun callee => ?_
  split
  next i function =>
    split
    · exact keeps_fail _ _
    · exact (Yields.of (yields_evalEach hp arguments)).bind fun values => keeps_invoke hp _ _ _
  next => exact keeps_fail _ _

/-- An index is evaluated to a number, of which nothing has to be known. -/
theorem yields_position (hp : C.OfParts p) (name : Token) (e : Expr) :
    C.Yields f (p.position f name e) (fun _ _ => True) := by
  refine (hp.eval f e).bind fun v => ?_
  split
  · exact Keeps.pure fun _ _ => trivial
  · exact keeps_fail _ _

/-- So is a bound of a range. -/
theorem yields_bound (hp : C.OfParts p) (name : Token) (e : Expr) :
    C.Yields f (p.bound f name e) (fun _ _ => True) := by
  refine (hp.eval f e).bind fun v => ?_
  split
  · exact Keeps.pure fun _ _ => trivial
  · exact keeps_fail _ _

/-- So is a bound that may be missing. -/
theorem yields_boundOr (hp : C.OfParts p) (name : Token) (otherwise : Float) (e : Option Expr) :
    C.Yields f (p.boundOr f name otherwise e) (fun _ _ => True) := by
  cases e with
  | none => exact Keeps.pure fun _ _ => trivial
  | some e => exact yields_bound hp name e

/-! ## Values -/

/-- An element of a known list is known. -/
theorem keeps_element (name : Token) (target : Value) (i : Int) :
    C.Keeps f (C.knows · target) (Value.element name target i) C.knows := by
  unfold Value.element
  split
  next id items =>
    apply keeps_ofExcept
    intro m v hknows hok
    have hok := ok_of_mapError hok
    unfold Selection.element at hok
    split at hok
    next item hitem =>
      cases hok
      obtain ⟨j, _, hj⟩ := Option.bind_eq_some_iff.mp hitem
      exact C.knows_item hknows (List.mem_of_getElem? hj)
    next => cases hok
  next contents =>
    split
    · exact Keeps.pure fun _ _ => C.knows_plain rfl
    · exact keeps_fail _ _
  next => exact keeps_fail _ _

/-- A slice of a known list is known. -/
theorem keeps_slice (name : Token) (target : Value) (start stop step : Int) :
    C.Keeps f (C.knows · target) (Value.slice name target start stop step) C.knows := by
  unfold Value.slice
  split
  next id items =>
    split
    next found hfound =>
      refine (keeps_newList found).mono (fun m _ hknows v hv => ?_) fun _ _ h => h
      exact C.knows_item hknows (Selection.mem_of_mem_slice hfound hv)
    next => exact keeps_fail _ _
  next contents =>
    split
    · exact Keeps.pure fun _ _ => C.knows_plain rfl
    · exact keeps_fail _ _
  next => exact keeps_fail _ _

/-- What a loop goes through is known if the whole is. -/
theorem knows_elements {m : Machine} {v item : Value} {items : List Value} (hv : C.knows m v)
    (h : v.elements? = some items) (hitem : item ∈ items) : C.knows m item := by
  unfold Value.elements? at h
  split at h
  · cases h
    exact C.knows_item hv hitem
  · cases h
    obtain ⟨c, _, rfl⟩ := List.mem_map.mp hitem
    exact C.knows_plain rfl
  · cases h

/-! ## Expressions and statements -/

/-- Every form of expression keeps a contract that its parts keep. -/
theorem yields_evalWith (hp : C.OfParts p) (e : Expr) : C.Yields f (e.evalWith p f) C.knows := by
  cases e with
  | literal value => exact Keeps.pure fun _ _ => C.knows_plain (by cases value <;> rfl)
  | «variable» name => exact yields_lookup name
  | grouping inner => exact hp.eval f inner
  | unary operator operand =>
    refine (hp.eval f operand).bind fun v => ?_
    exact keeps_ofExcept fun _ _ _ hok =>
      C.knows_plain (Value.isPlain_unaryFault (ok_of_mapError hok))
  | binary left operator right =>
    refine (hp.eval f left).bind fun v => ?_
    refine (Yields.of (hp.eval f right)).bind fun w => ?_
    exact keeps_ofExcept fun _ _ _ hok =>
      C.knows_plain (Value.isPlain_binaryFault (ok_of_mapError hok))
  | logical left operator right =>
    refine (hp.eval f left).bind fun v => ?_
    split
    · exact Keeps.pure fun _ hv => hv
    · exact Yields.of (hp.eval f right)
  | assign name value =>
    refine (hp.eval f value).bind fun v => ?_
    exact (keeps_assign name v).bind fun _ => Keeps.pure fun _ hv => hv
  | list items => exact (yields_evalEach hp items).bind fun vs => keeps_newList vs
  | element name position =>
    refine (yields_lookup name).bind fun target => ?_
    refine (Yields.frame (yields_position hp name position) (stable_knows target)).bind fun i => ?_
    exact (keeps_element name target i).mono (fun _ _ h => h.2) fun _ _ h => h
  | slice name start stop =>
    refine (yields_lookup name).bind fun target => ?_
    refine (Yields.frame (yields_position hp name start) (stable_knows target)).bind fun i => ?_
    refine ((yields_position hp name stop).of.frame (stable_knows target)).bind fun j => ?_
    exact (keeps_slice name target i j 1).mono (fun _ _ h => h.2) fun _ _ h => h
  | stride name start stop step =>
    refine (yields_lookup name).bind fun target => ?_
    refine (Yields.frame (yields_position hp name start) (stable_knows target)).bind fun i => ?_
    refine ((yields_position hp name stop).of.frame (stable_knows target)).bind fun j => ?_
    refine ((yields_position hp name step).of.frame (stable_knows target)).bind fun k => ?_
    exact (keeps_slice name target i j k).mono (fun _ _ h => h.2) fun _ _ h => h
  | call name arguments => exact yields_call hp name arguments

/-- What follows the first block of a branch keeps the contract. -/
theorem yields_alternative (hp : C.OfParts p) (otherwise : Alternative) :
    C.Yields f (otherwise.execWith p f) C.knowsFlow := by
  induction otherwise using Alternative.execWith.induct with
  | case1 => exact Keeps.pure fun _ _ => C.knows_plain rfl
  | case2 condition body otherwise ih =>
    rw [Alternative.execWith]
    refine (hp.eval f condition).bind fun v => ?_
    split
    · exact Yields.of (yields_execBlock hp body)
    · exact Yields.of ih
  | case3 body => exact yields_execBlock hp body

/-- A round of a loop that assigns its variable and executes a block. -/
theorem keeps_round (hp : C.OfParts p) (name : Token) (body : List Stmt) (v : Value) :
    C.Keeps f (C.knows · v) (do Eval.assign f name v; p.execBlock f body) C.knowsFlow :=
  (keeps_assign name v).bind fun _ => Yields.of (yields_execBlock hp body)

/-- Every form of statement keeps a contract that its parts keep. -/
theorem yields_execWith (hp : C.OfParts p) (fuel : Nat) (s : Stmt) :
    C.Yields f (s.execWith fuel p f) C.knowsFlow := by
  have hnext {P : Machine → Prop} : C.Keeps f P (Pure.pure Flow.next) C.knowsFlow :=
    Keeps.pure fun _ _ => C.knows_plain rfl
  cases s with
  | expression value => exact (hp.eval f value).bind fun _ => hnext
  | print keyword value =>
    refine (hp.eval f value).bind fun v => ?_
    exact (Yields.of (yields_print keyword v.text)).bind fun _ => hnext
  | assign name value =>
    exact (hp.eval f value).bind fun v => (keeps_assign name v).bind fun _ => hnext
  | block body => exact yields_execBlock hp body
  | branch condition body otherwise =>
    refine (hp.eval f condition).bind fun v => ?_
    split
    · exact Yields.of (yields_execBlock hp body)
    · exact Yields.of (yields_alternative hp otherwise)
  | loop condition body =>
    apply yields_whileTrue fuel _ (yields_execBlock hp body)
    rw [map_eq_pure_bind]
    exact (hp.eval f condition).bind fun v => Keeps.pure fun _ _ => trivial
  | forRange name start stop step body =>
    refine (yields_boundOr hp name 0.0 start).bind fun i => ?_
    refine (yields_bound hp name stop).bind fun j => ?_
    refine (yields_boundOr hp name 1.0 step).bind fun k => ?_
    split
    · exact keeps_fail _ _
    · apply yields_forNumbers
      intro x
      exact (keeps_round hp name body (.number x)).mono (fun _ _ _ => C.knows_plain rfl)
        fun _ _ h => h
  | forEach name iterable body =>
    refine (hp.eval f iterable).bind fun v => ?_
    split
    · exact keeps_fail _ _
    next items hitems =>
      exact (keeps_untilReturn items stable_knows (keeps_round hp name body)).mono
        (fun _ _ hv item hitem => knows_elements hv hitems hitem) fun _ _ h => h
  | define name parameters body =>
    refine (yields_newFunction _).bind fun v => ?_
    exact (keeps_assign name v).bind fun _ => hnext
  | «return» keyword value =>
    cases value with
    | none => exact Keeps.pure fun _ _ => C.knows_plain rfl
    | some e => exact (hp.eval f e).bind fun v => Keeps.pure fun _ h => h

/-- Evaluation keeps every contract, with any amount of fuel. -/
theorem ofParts (C : Contract) (fuel : Nat) : C.OfParts (Parts.withFuel fuel) := by
  induction fuel with
  | zero => exact ⟨fun f e => Keeps.throw _, fun f s => Keeps.throw _⟩
  | succ fuel ih => exact ⟨fun f e => yields_evalWith ih e, fun f s => yields_execWith ih fuel s⟩

end Contract

end Offside
