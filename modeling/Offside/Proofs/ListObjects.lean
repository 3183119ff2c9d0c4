import Offside.Proofs.Equality
import Offside.Proofs.Rejections
import Offside.Proofs.Transitions

/-!
# The lists of a run

A running program makes lists and never changes them, so the lists that exist form a heap that only
grows: a new list gets an identity that no list has. All values that a program can reach live in
this heap. This is what the actions of a running program promise, one by one, with the heap that
they leave behind.
-/

namespace Offside

/-- Lists that exist go on to exist. -/
def Heap.Extends (h h' : Heap) : Prop := ∀ i items, h i = some items → h' i = some items

/-- The heap with one more list. -/
def Heap.insert (h : Heap) (i : Nat) (items : List Value) : Heap :=
  fun j => if j = i then some items else h j

/-- A heap extends itself. -/
theorem Heap.Extends.refl (h : Heap) : h.Extends h := fun _ _ hi => hi

/-- Extension is transitive. -/
theorem Heap.Extends.trans {h h' h'' : Heap} (hle : h.Extends h') (hle' : h'.Extends h'') :
    h.Extends h'' :=
  fun i items hi => hle' i items (hle i items hi)

/-- A heap is extended by a list at an identity that is free. -/
theorem Heap.extends_insert {h : Heap} {i : Nat} (hi : h i = none) (items : List Value) :
    h.Extends (h.insert i items) := by
  intro j others hj
  have hne : j ≠ i := by
    rintro rfl
    simp [hi] at hj
  rw [Heap.insert, if_neg hne, hj]

/-- What lives in a heap lives in every extension of it. -/
theorem Value.Lives.mono {h h' : Heap} (hle : h.Extends h') {v : Value} (hv : v.Lives h) :
    v.Lives h' := by
  induction hv with
  | plain hplain => exact .plain hplain
  | list hi _ ih => exact .list (hle _ _ hi) ih
  | function i definition => exact .function i definition

/-- What a statement ends with lives in the heap. -/
def Flow.Lives (h : Heap) (flow : Flow) : Prop := flow.result.Lives h

/-- All values of a state live in the heap, and no list has an identity that is still to be given
out. -/
structure Machine.LivesIn (m : Machine) (h : Heap) : Prop where
  bindings : m.scopes.Binds (Value.Lives h)
  fresh (i : Nat) : m.nextIdentity ≤ i → h i = none

namespace Machine.LivesIn

variable {m m' : Machine} {h h' : Heap}

/-- A machine lives on where its frames do, if identities only go up. -/
theorem of_scopes (hm : m.LivesIn h) (hscopes : m'.scopes = m.scopes)
    (hnext : m.nextIdentity ≤ m'.nextIdentity) : m'.LivesIn h where
  bindings := hscopes ▸ hm.bindings
  fresh i hi := hm.fresh i (hnext.trans hi)

/-- A new list gets an identity of its own. -/
theorem issue {items : List Value} (hm : m.LivesIn h) (hitems : ∀ v ∈ items, v.Lives h) :
    h.Extends (h.insert m.nextIdentity items) ∧
      m.issue.LivesIn (h.insert m.nextIdentity items) ∧
      (Value.list m.nextIdentity items).Lives (h.insert m.nextIdentity items) := by
  have hle := Heap.extends_insert (hm.fresh _ le_rfl) items
  refine ⟨hle, ⟨fun g v hv => (hm.bindings g v hv).mono hle, fun i hi => ?_⟩, ?_⟩
  · have hlt : m.nextIdentity + 1 ≤ i := hi
    rw [Heap.insert, if_neg (by omega)]
    exact hm.fresh i (by omega)
  · exact .list (by rw [Heap.insert, if_pos rfl]) fun v hv => (hitems v hv).mono hle

end Machine.LivesIn

/-- A run ends in a state that lives in a larger heap, with a result that is as it should be
there. -/
inductive Grown {α : Type} (h : Heap) (K : Heap → α → Prop) :
    EStateM.Result Halt Machine α → Prop
  | ok {h' : Heap} {a : α} {m : Machine} : h.Extends h' → m.LivesIn h' → K h' a →
    Grown h K (.ok a m)
  | error {h' : Heap} {e : Halt} {m : Machine} : h.Extends h' → m.LivesIn h' →
    Grown h K (.error e m)

/-- The heap grows while an action runs in a state that lives in it. -/
def Grows {α : Type} (h : Heap) (action : Eval α) (K : Heap → α → Prop) : Prop :=
  ∀ m : Machine, m.LivesIn h → Grown h K (action m)

section

variable {α β : Type} {h : Heap} {K : Heap → α → Prop} {L : Heap → β → Prop} {f : Nat} {m : Machine}

/-- However an action ends, its state lives in an extension of the heap. -/
theorem Grown.state {r : EStateM.Result Halt Machine α} (hr : Grown h K r) :
    ∃ h', h.Extends h' ∧ (Eval.stateAfter r).LivesIn h' := by
  cases hr with
  | ok hle hm _ => exact ⟨_, hle, hm⟩
  | error hle hm => exact ⟨_, hle, hm⟩

/-- A last step that keeps machines alive keeps a grown result grown. -/
theorem Grown.thenAlways {action : Eval α} {change : Machine → Machine}
    (hr : Grown h K (action m)) (hchange : ∀ m h, m.LivesIn h → (change m).LivesIn h) :
    Grown h K (Eval.thenAlways action change m) := by
  unfold Eval.thenAlways
  generalize action m = r at hr
  cases hr with
  | ok hle hm ha => exact .ok hle (hchange _ _ hm) ha
  | error hle hm => exact .error hle (hchange _ _ hm)

namespace Grows

/-- A pure action grows nothing. -/
theorem pure {a : α} (ha : K h a) : Grows h (Pure.pure a) K := fun _ hm => .ok (.refl h) hm ha

/-- A halt grows nothing. -/
theorem throw (halt : Halt) : Grows h (MonadExcept.throw halt) K := fun _ hm => .error (.refl h) hm

/-- Growth is passed from an action to what follows it. -/
theorem bind {x : Eval α} {k : α → Eval β} (hx : Grows h x K)
    (hk : ∀ h' a, h.Extends h' → K h' a → Grows h' (k a) L) : Grows h (x >>= k) L := by
  intro m hm
  have hfirst := hx m hm
  simp only [Bind.bind, EStateM.bind]
  generalize x m = r at hfirst
  cases hfirst with
  | error hle hm' => exact .error hle hm'
  | @ok h' a m' hle hm' ha =>
    have hsecond := hk h' a hle ha m' hm'
    simp only
    generalize k a m' = r at hsecond
    cases hsecond with
    | error hle' hm'' => exact .error (hle.trans hle') hm''
    | ok hle' hm'' hb => exact .ok (hle.trans hle') hm'' hb

/-! ## Elementary actions -/

/-- A failure grows nothing. -/
theorem fail (fault : RuntimeFault) (token : Token) : Grows h (Eval.fail fault token) K :=
  throw _

/-- A value that is looked up lives. -/
theorem lookup (f : Nat) (name : Token) : Grows h (Eval.lookup f name) fun h v => v.Lives h := by
  intro m hm
  rw [Eval.lookup_apply]
  cases hlookup : m.scopes.lookup f name.lexeme with
  | none => exact .error (.refl h) hm
  | some v => exact .ok (.refl h) hm (hm.bindings.lookup hlookup)

/-- A living value may be assigned. -/
theorem assign (name : Token) {v : Value} (hv : v.Lives h) :
    Grows h (Eval.assign f name v) fun _ _ => True :=
  fun _ hm => .ok (.refl h) ⟨hm.bindings.assign f name.lexeme hv, hm.fresh⟩ trivial

/-- A new list of living items lives, in a heap that holds it. -/
theorem newList {items : List Value} (hitems : ∀ v ∈ items, v.Lives h) :
    Grows h (Eval.newList items) fun h v => v.Lives h := by
  intro m hm
  obtain ⟨hle, hm', hv⟩ := hm.issue hitems
  exact .ok hle hm' hv

/-- A new function lives. -/
theorem newFunction (definition : Function) :
    Grows h (Eval.newFunction definition) fun h v => v.Lives h :=
  fun _ hm => .ok (.refl h) (hm.of_scopes rfl (Nat.le_succ _)) (.function _ _)

/-- Printing grows nothing. -/
theorem print (keyword : Token) (line : String) :
    Grows h (Eval.print keyword line) fun _ _ => True := by
  intro m hm
  simp only [Eval.print]
  rcases m.sink.writeLine line with ⟨_ | _, sink⟩
  · exact .error (.refl h) (hm.of_scopes rfl le_rfl)
  · exact .ok (.refl h) (hm.of_scopes rfl le_rfl) trivial

/-- A check of values grows nothing. -/
theorem ofExcept {result : Except RuntimeError α} (hresult : ∀ a, result = .ok a → K h a) :
    Grows h (Eval.ofExcept result) K := by
  cases result with
  | error e => exact throw _
  | ok a => exact pure (hresult a rfl)

/-! ## Loops -/

/-- A loop over elements grows as its rounds do. -/
theorem untilReturn {action : α → Eval Flow} {elements : List α}
    (haction : ∀ h', h.Extends h' → ∀ a ∈ elements, Grows h' (action a) Flow.Lives) :
    Grows h (Eval.untilReturn action elements) Flow.Lives := by
  induction elements generalizing h with
  | nil => exact pure (.plain rfl)
  | cons a rest ih =>
    rw [Eval.untilReturn]
    refine (haction h (.refl h) a List.mem_cons_self).bind fun h' flow hle hflow => ?_
    cases flow with
    | next =>
      exact ih fun h'' hle' b hb => haction h'' (hle.trans hle') b (List.mem_cons_of_mem a hb)
    | returned v => exact pure hflow

/-- A while loop grows as its rounds do. -/
theorem whileTrue {condition : Eval Bool} {action : Eval Flow} (fuel : Nat)
    (hcondition : ∀ h, Grows h condition fun _ _ => True)
    (haction : ∀ h, Grows h action Flow.Lives) :
    Grows h (Eval.whileTrue condition action fuel) Flow.Lives := by
  induction fuel generalizing h with
  | zero => exact throw _
  | succ fuel ih =>
    rw [Eval.whileTrue]
    refine (hcondition h).bind fun h' go _ _ => ?_
    cases go with
    | false => exact pure (.plain rfl)
    | true =>
      refine (haction h').bind fun h'' flow _ hflow => ?_
      cases flow with
      | next => exact ih
      | returned v => exact pure hflow

/-- A counting loop grows as its rounds do. -/
theorem forNumbers {stop step : Float} {action : Float → Eval Flow} (i : Float) (fuel : Nat)
    (haction : ∀ h i, Grows h (action i) Flow.Lives) :
    Grows h (Eval.forNumbers stop step action i fuel) Flow.Lives := by
  induction fuel generalizing h i with
  | zero => exact throw _
  | succ fuel ih =>
    rw [Eval.forNumbers]
    split
    · refine (haction h i).bind fun h' flow _ hflow => ?_
      cases flow with
      | next => exact ih _
      | returned v => exact pure hflow
    · exact pure (.plain rfl)

/-! ## Blocks and calls -/

/-- The heap grows while parts are evaluated. -/
structure OfParts (p : Parts) : Prop where
  eval (h : Heap) (f : Nat) (e : Expr) : Grows h (p.eval f e) fun h v => v.Lives h
  exec (h : Heap) (f : Nat) (s : Stmt) : Grows h (p.exec f s) Flow.Lives

variable {p : Parts}

/-- Arguments are evaluated to living values. -/
theorem evalEach (hp : OfParts p) (es : List Expr) :
    Grows h (p.evalEach f es) fun h vs => ∀ v ∈ vs, v.Lives h := by
  induction es generalizing h with
  | nil => exact pure (by simp)
  | cons e es ih =>
    rw [Parts.evalEach]
    refine (hp.eval h f e).bind fun h' v _ hv => ih.bind fun h'' vs hle hvs => ?_
    exact pure (List.forall_mem_cons.mpr ⟨hv.mono hle, hvs⟩)

/-- A body ends in a living flow. -/
theorem body (hp : OfParts p) (statements : List Stmt) :
    Grows h (Eval.untilReturn (p.exec f) statements) Flow.Lives :=
  untilReturn fun h' _ s _ => hp.exec h' f s

/-- So does a block. -/
theorem execBlock (hp : OfParts p) (statements : List Stmt) :
    Grows h (p.execBlock f statements) Flow.Lives := by
  intro m hm
  have hinside : (m.enter f []).LivesIn h := ⟨hm.bindings.push (some f) (by simp), hm.fresh⟩
  rw [Parts.execBlock_apply]
  exact (body hp statements _ hinside).thenAlways fun _ _ hm' =>
    ⟨hm'.bindings.truncate _, hm'.fresh⟩

/-- So does the body of a function on living arguments. -/
theorem runBody (hp : OfParts p) (function : Function) {values : List Value}
    (hvalues : ∀ v ∈ values, v.Lives h) : Grows h (p.runBody function values) Flow.Lives := by
  intro m hm
  have hinside : (m.call (Parts.bindParameters function.parameters values)).LivesIn h :=
    ⟨hm.bindings.push _ fun v hv => hvalues v (Parts.snd_mem_bindParameters hv), hm.fresh⟩
  exact (body hp function.body _ hinside).thenAlways fun _ _ hm' =>
    ⟨hm'.bindings.truncate _, hm'.fresh⟩

/-- An invocation on living arguments gives a living value. -/
theorem invoke (hp : OfParts p) (name : Token) (function : Function) {values : List Value}
    (hvalues : ∀ v ∈ values, v.Lives h) :
    Grows h (p.invoke name function values) fun h v => v.Lives h := by
  intro m hm
  rw [Parts.invoke_apply]
  split
  · exact .error (.refl h) hm
  · have hresult (h' : Heap) (flow : Flow) (hflow : flow.Lives h') :
        Grows h' (Pure.pure flow.result) fun h v => v.Lives h := pure hflow
    exact (runBody hp function hvalues).bind (fun h' flow _ => hresult h' flow) m hm

/-- So does a call. -/
theorem call (hp : OfParts p) (name : Token) (arguments : List Expr) :
    Grows h (p.call f name arguments) fun h v => v.Lives h := by
  refine (lookup f name).bind fun h' callee _ _ => ?_
  split
  · split
    · exact fail _ _
    · exact (evalEach hp arguments).bind fun h'' values _ hvalues => invoke hp _ _ hvalues
  · exact fail _ _

/-- Evaluating a position keeps the machine alive. -/
theorem position (hp : OfParts p) (name : Token) (e : Expr) :
    Grows h (p.position f name e) fun _ _ => True := by
  refine (hp.eval h f e).bind fun h' v _ _ => ?_
  split
  · exact pure trivial
  · exact fail _ _

/-- So does evaluating a bound. -/
theorem bound (hp : OfParts p) (name : Token) (e : Expr) :
    Grows h (p.bound f name e) fun _ _ => True := by
  refine (hp.eval h f e).bind fun h' v _ _ => ?_
  split
  · exact pure trivial
  · exact fail _ _

/-- So does evaluating a bound that may be left out. -/
theorem boundOr (hp : OfParts p) (name : Token) (otherwise : Float) (e : Option Expr) :
    Grows h (p.boundOr f name otherwise e) fun _ _ => True := by
  cases e with
  | none => exact pure trivial
  | some e => exact bound hp name e

/-- An element of a living list lives. -/
theorem element (name : Token) {target : Value} (htarget : target.Lives h) (i : Int) :
    Grows h (Value.element name target i) fun h v => v.Lives h := by
  unfold Value.element
  split
  · exact ofExcept fun v hok => htarget.item (Selection.mem_of_element (ok_of_mapError hok))
  · split
    · exact pure (.plain rfl)
    · exact fail _ _
  · exact fail _ _

/-- A slice of a living value lives. -/
theorem slice (name : Token) {target : Value} (htarget : target.Lives h) (i j k : Int) :
    Grows h (Value.slice name target i j k) fun h v => v.Lives h := by
  unfold Value.slice
  split
  · split
    next found hfound =>
      exact newList fun v hv => htarget.item (Selection.mem_of_mem_slice hfound hv)
    next => exact fail _ _
  · split
    · exact pure (.plain rfl)
    · exact fail _ _
  · exact fail _ _

/-- What a loop visits in a living value lives. -/
theorem elements {target item : Value} {items : List Value} (htarget : target.Lives h)
    (hitems : target.elements? = some items) (hitem : item ∈ items) : item.Lives h := by
  unfold Value.elements? at hitems
  split at hitems <;> cases hitems
  · exact htarget.item hitem
  · obtain ⟨c, -, rfl⟩ := List.mem_map.mp hitem
    exact .plain rfl

/-! ## Expressions and statements -/

/-- Every expression gives a living value if its parts do. -/
theorem evalWith (hp : OfParts p) (e : Expr) :
    Grows h (e.evalWith p f) fun h v => v.Lives h := by
  cases e with
  | literal value => exact pure (.plain (by cases value <;> rfl))
  | «variable» name => exact lookup f name
  | grouping inner => exact hp.eval h f inner
  | unary operator operand =>
    refine (hp.eval h f operand).bind fun h' v _ _ => ?_
    exact ofExcept fun _ hok => .plain (Value.isPlain_unaryFault (ok_of_mapError hok))
  | binary left operator right =>
    refine (hp.eval h f left).bind fun h' v _ _ => (hp.eval h' f right).bind fun h'' w _ _ => ?_
    exact ofExcept fun _ hok => .plain (Value.isPlain_binaryFault (ok_of_mapError hok))
  | logical left operator right =>
    refine (hp.eval h f left).bind fun h' v _ hv => ?_
    split
    · exact pure hv
    · exact hp.eval h' f right
  | assign name value =>
    refine (hp.eval h f value).bind fun h' v _ hv => ?_
    exact (assign name hv).bind fun h'' _ hle _ => pure (hv.mono hle)
  | list items => exact (evalEach hp items).bind fun h' vs _ hvs => newList hvs
  | element name i =>
    refine (lookup f name).bind fun h₁ target _ htarget => ?_
    refine (position hp name i).bind fun h₂ i hle _ => ?_
    exact element name (htarget.mono hle) i
  | slice name start stop =>
    refine (lookup f name).bind fun h₁ target _ htarget => ?_
    refine (position hp name start).bind fun h₂ i hle _ => ?_
    refine (position hp name stop).bind fun h₃ j hle' _ => ?_
    exact slice name (htarget.mono (hle.trans hle')) i j 1
  | stride name start stop step =>
    refine (lookup f name).bind fun h₁ target _ htarget => ?_
    refine (position hp name start).bind fun h₂ i hle _ => ?_
    refine (position hp name stop).bind fun h₃ j hle' _ => ?_
    refine (position hp name step).bind fun h₄ k hle'' _ => ?_
    exact slice name (htarget.mono ((hle.trans hle').trans hle'')) i j k
  | call name arguments => exact call hp name arguments

/-- An alternative ends in a living flow if its parts do. -/
theorem alternative (hp : OfParts p) (otherwise : Alternative) :
    Grows h (otherwise.execWith p f) Flow.Lives := by
  induction otherwise using Alternative.execWith.induct generalizing h with
  | case1 => exact pure (.plain rfl)
  | case2 condition body otherwise ih =>
    rw [Alternative.execWith]
    refine (hp.eval h f condition).bind fun h' v _ _ => ?_
    split
    · exact execBlock hp body
    · exact ih
  | case3 body => exact execBlock hp body

/-- So does a round of a loop over a living element. -/
theorem round (hp : OfParts p) (name : Token) (body : List Stmt) {v : Value} (hv : v.Lives h) :
    Grows h (do Eval.assign f name v; p.execBlock f body) Flow.Lives :=
  (assign name hv).bind fun _ _ _ _ => execBlock hp body

/-- Every statement ends in a living flow if its parts do. -/
theorem execWith (hp : OfParts p) (fuel : Nat) (s : Stmt) :
    Grows h (s.execWith fuel p f) Flow.Lives := by
  have hnext {h : Heap} : Grows h (Pure.pure Flow.next) Flow.Lives := pure (.plain rfl)
  cases s with
  | expression value => exact (hp.eval h f value).bind fun _ _ _ _ => hnext
  | print keyword value =>
    refine (hp.eval h f value).bind fun h' v _ _ => ?_
    exact (print keyword v.text).bind fun _ _ _ _ => hnext
  | assign name value =>
    exact (hp.eval h f value).bind fun _ _ _ hv => (assign name hv).bind fun _ _ _ _ => hnext
  | block body => exact execBlock hp body
  | branch condition body otherwise =>
    refine (hp.eval h f condition).bind fun h' v _ _ => ?_
    split
    · exact execBlock hp body
    · exact alternative hp otherwise
  | loop condition body =>
    refine whileTrue fuel (fun h => ?_) fun h => execBlock hp body
    rw [map_eq_pure_bind]
    exact (hp.eval h f condition).bind fun _ _ _ _ => pure trivial
  | forRange name start stop step body =>
    refine (boundOr hp name 0.0 start).bind fun h₁ i _ _ => ?_
    refine (bound hp name stop).bind fun h₂ j _ _ => ?_
    refine (boundOr hp name 1.0 step).bind fun h₃ k _ _ => ?_
    split
    · exact fail _ _
    · exact forNumbers _ _ fun h x => round hp name body (.plain rfl)
  | forEach name iterable body =>
    refine (hp.eval h f iterable).bind fun h' v _ hv => ?_
    split
    · exact fail _ _
    next items hitems =>
      exact untilReturn fun h'' hle item hitem =>
        round hp name body ((elements hv hitems hitem).mono hle)
  | define name parameters body =>
    refine (newFunction ⟨name, parameters, body⟩).bind fun h' v _ hv => ?_
    exact (assign name hv).bind fun _ _ _ _ => hnext
  | «return» keyword value =>
    cases value with
    | none => exact pure (.plain rfl)
    | some e => exact (hp.eval h f e).bind fun _ _ _ hv => pure hv

/-- The heap grows while anything is evaluated, with any amount of fuel. -/
theorem ofParts (fuel : Nat) : OfParts (Parts.withFuel fuel) := by
  induction fuel with
  | zero => exact ⟨fun _ _ _ => throw _, fun _ _ _ => throw _⟩
  | succ fuel ih => exact ⟨fun _ _ e => evalWith ih e, fun _ _ s => execWith ih fuel s⟩

end Grows

end

/-! ## Sessions -/

namespace Session

variable {fuel : Nat} {s t : Session} {source : String} {outcome : Outcome} {runs : List Ran}

/-- A new session lives in the empty heap. -/
theorem livesIn_new (depthLimit : Nat) (sink : Sink) :
    (Session.new depthLimit sink).machine.LivesIn fun _ => none where
  bindings := (Scopes.binds_empty _).push none (by simp)
  fresh _ _ := rfl

/-- Running a source makes the heap grow, however the run ends. -/
theorem livesIn_run {h : Heap} (hs : s.machine.LivesIn h)
    (hrun : s.run fuel source = some (outcome, t)) : ∃ h', h.Extends h' ∧ t.machine.LivesIn h' := by
  rw [Session.run_eq] at hrun
  split at hrun
  · have hstart : s.start.LivesIn h := hs.of_scopes rfl le_rfl
    rw [Session.machine_of_conclude hrun]
    exact (Grows.body (Grows.ofParts fuel) (check source).program s.start hstart).state
  · cases hrun
    exact ⟨h, .refl h, hs⟩

/-- After any runs a session lives in an extension of the heap it lived in. -/
theorem Runs.livesIn {h : Heap} (hruns : s.Runs runs t) (hs : s.machine.LivesIn h) :
    ∃ h', h.Extends h' ∧ t.machine.LivesIn h' := by
  induction hruns generalizing h with
  | nil s => exact ⟨h, .refl h, hs⟩
  | cons hrun _ ih =>
    obtain ⟨h', hle, ht⟩ := livesIn_run hs hrun
    obtain ⟨h'', hle', hu⟩ := ih ht
    exact ⟨h'', hle.trans hle', hu⟩

end Session

/-- Equality is lawful on the values of one heap. Such values are all there are: the values of any
expressions that are evaluated one after the other in a session live in one heap. -/
theorem equality_lawful :
    (∀ (h : Heap) (x y z : Value), x.Lives h → y.Lives h → z.Lives h → x.EqualityLaws y z) ∧
      ∀ (depthLimit : Nat) (sink : Sink) (runs : List Ran) (t : Session),
        (Session.new depthLimit sink).Runs runs t →
          ∀ (fuel f : Nat) (es : List Expr) (values : List Value) (m : Machine),
            (Parts.withFuel fuel).evalEach f es t.machine = .ok values m →
              ∃ h, m.LivesIn h ∧ ∀ v ∈ values, v.Lives h := by
  refine ⟨fun h x y z hx hy hz => hx.equalityLaws hy hz, ?_⟩
  intro depthLimit sink runs t hruns fuel f es values m heval
  obtain ⟨h, -, ht⟩ := hruns.livesIn (Session.livesIn_new depthLimit sink)
  have hgrown := Grows.evalEach (Grows.ofParts fuel) es t.machine (f := f) ht
  rw [heval] at hgrown
  cases hgrown with
  | ok _ hm hvalues => exact ⟨_, hm, hvalues⟩

/-- Two lists that share a list with a NaN are equal, although their items do not unfold alike. -/
theorem equality_lawful_sharedNaN :
    let nan : Value := .number (0.0 / 0.0)
    let x : Value := .list 1 [.list 0 [nan]]
    let y : Value := .list 2 [.list 0 [nan]]
    x.equal y = true ∧ x.EqualityLaws y x ∧ (Value.list 0 [nan]).equal (.list 3 [nan]) = false := by
  intro nan x y
  let h : Heap := fun i => if i = 0 then some [nan] else some [.list 0 [nan]]
  have hshared : (Value.list 0 [nan]).Lives h := .list rfl (by simpa using .plain rfl)
  have hx : x.Lives h := .list rfl (by simpa using hshared)
  have hy : y.Lives h := .list rfl (by simpa using hshared)
  exact ⟨by decide +kernel, equality_lawful.1 h x y x hx hy hx, by decide +kernel⟩

end Offside
