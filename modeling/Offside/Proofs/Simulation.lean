import Offside.Proofs.Alike
import Offside.Proofs.Transitions

/-!
# Two runs side by side

A simulation relates the states of two runs of the same program, whose tokens may have moved in one
of them. What the elementary actions do to related states carries over to every evaluation: from
related states both runs end alike, in related states. The first run may be excused for certain
halts; running out of fuel is always an excuse, so that the second run may have more fuel.
-/

namespace Offside

/-- Bindings of the same names to alike values. -/
def Bindings.Alike (L : Likeness) : Bindings → Bindings → Prop :=
  List.Forall₂ fun entry entry' => entry.1 = entry'.1 ∧ entry.2.Alike L entry'.2

/-- Alike bindings stay alike when one name is set to alike values. -/
theorem Bindings.Alike.set {L : Likeness} {bindings bindings' : Bindings} {v v' : Value}
    (h : bindings.Alike L bindings') (name : String) (hv : v.Alike L v') :
    (bindings.set name v).Alike L (bindings'.set name v') := by
  induction h with
  | nil => exact .cons ⟨rfl, hv⟩ .nil
  | @cons entry entry' _ _ hentry hrest ih =>
    obtain ⟨n, w⟩ := entry
    obtain ⟨n', w'⟩ := entry'
    obtain ⟨rfl, hw⟩ := hentry
    simp only [Bindings.set]
    split
    · exact .cons ⟨rfl, hv⟩ hrest
    · exact .cons ⟨rfl, hw⟩ ih

/-- A relation between the states of two runs, given by what the elementary actions do to related
states. -/
structure Simulation extends Likeness where
  /-- Which states correspond. -/
  machine : Machine → Machine → Prop
  /-- Which frames correspond. -/
  frame : Nat → Nat → Prop
  /-- For which halts of the first run nothing is said about the second one. -/
  excused : Halt → Prop
  exhausted : excused .exhausted
  global : frame Machine.globalFrame Machine.globalFrame
  lookup {m m' : Machine} {f f' : Nat} (name : String) : machine m m' → frame f f' →
    Option.Rel (Value.Alike toLikeness) (m.scopes.lookup f name) (m'.scopes.lookup f' name)
  assign {m m' : Machine} {f f' : Nat} {v v' : Value} (name : String) : machine m m' →
    frame f f' → v.Alike toLikeness v' → machine (m.assign f name v) (m'.assign f' name v')
  issue {m m' : Machine} : machine m m' →
    identity m.nextIdentity m'.nextIdentity ∧ machine m.issue m'.issue
  print {m m' : Machine} (line : String) : machine m m' →
    (m.sink.writeLine line).1 = (m'.sink.writeLine line).1 ∧
      machine { m with sink := (m.sink.writeLine line).2 }
        { m' with sink := (m'.sink.writeLine line).2 }
  enter {m m' : Machine} {f f' : Nat} : machine m m' → frame f f' →
    frame m.scopes.size m'.scopes.size ∧ machine (m.enter f []) (m'.enter f' [])
  leave {m m' n n' : Machine} : machine m m' → machine n n' →
    machine (n.leave m.scopes.size) (n'.leave m'.scopes.size)
  tooDeep {m m' : Machine} : machine m m' → m.depthLimit ≤ m.depth →
    m'.depthLimit ≤ m'.depth ∨ ∀ token, excused (.failed ⟨.tooDeep, token⟩)
  notTooDeep {m m' : Machine} : machine m m' → m'.depthLimit ≤ m'.depth → m.depthLimit ≤ m.depth
  call {m m' : Machine} {bindings bindings' : Bindings} : machine m m' →
    bindings.Alike toLikeness bindings' →
      frame m.scopes.size m'.scopes.size ∧ machine (m.call bindings) (m'.call bindings')
  comeBack {m m' n n' : Machine} : machine m m' → machine n n' →
    machine (n.comeBack m.scopes.size) (n'.comeBack m'.scopes.size)

namespace Simulation

variable {S : Simulation} {α β α' β' : Type}

/-- Two runtime errors with the same fault, blamed on the same token up to a move. -/
def Fails (S : Simulation) (e e' : RuntimeError) : Prop :=
  e'.fault = e.fault ∧ ∃ g, S.moves g ∧ e'.token = g e.token

/-- How the results of two runs correspond. -/
inductive Related (S : Simulation) (R : α → α' → Prop) :
    EStateM.Result Halt Machine α → EStateM.Result Halt Machine α' → Prop
  | ok {a : α} {a' : α'} {m m' : Machine} : S.machine m m' → R a a' →
    Related S R (.ok a m) (.ok a' m')
  | failed {e e' : RuntimeError} {m m' : Machine} : S.machine m m' → S.Fails e e' →
    Related S R (.error (.failed e) m) (.error (.failed e') m')
  | excused {halt : Halt} {m : Machine} {r : EStateM.Result Halt Machine α'} : S.excused halt →
    Related S R (.error halt m) r

/-- Two actions that end alike from related states. -/
def Matches (S : Simulation) (R : α → α' → Prop) (x : Eval α) (x' : Eval α') : Prop :=
  ∀ m m', S.machine m m' → S.Related R (x m) (x' m')

/-- Alike values in a simulation. -/
abbrev Alike (S : Simulation) : Value → Value → Prop := Value.Alike S.toLikeness

/-- How the results of two statements correspond. -/
inductive Flows (S : Simulation) : Flow → Flow → Prop
  | next : Flows S .next .next
  | returned {v v' : Value} : S.Alike v v' → Flows S (.returned v) (.returned v')

/-! ## Combining actions -/

/-- Returning alike results matches. -/
theorem Matches.pure {R : α → α' → Prop} {a : α} {a' : α'} (h : R a a') :
    S.Matches R (Pure.pure a) (Pure.pure a') :=
  fun _ _ hm => .ok hm h

/-- Running out of fuel is matched by anything. -/
theorem Matches.exhausted {R : α → α' → Prop} (x' : Eval α') :
    S.Matches R Eval.exhausted x' :=
  fun _ _ _ => .excused S.exhausted

/-- Matching steps make matching sequences. -/
theorem Matches.bind {R : α → α' → Prop} {Q : β → β' → Prop} {x : Eval α} {x' : Eval α'}
    {k : α → Eval β} {k' : α' → Eval β'} (hx : S.Matches R x x')
    (hk : ∀ a a', R a a' → S.Matches Q (k a) (k' a')) :
    S.Matches Q (x >>= k) (x' >>= k') := by
  intro m m' hm
  have h := hx m m' hm
  simp only [Bind.bind, EStateM.bind]
  generalize x m = r at h
  generalize x' m' = r' at h
  cases h with
  | ok hn ha => exact hk _ _ ha _ _ hn
  | failed hn he => exact .failed hn he
  | excused hhalt => exact .excused hhalt

/-- A failure matches itself at a corresponding token. -/
theorem Matches.fail {R : α → α' → Prop} {g : Token → Token} (hg : S.moves g)
    (fault : RuntimeFault) (token : Token) :
    S.Matches R (Eval.fail fault token) (Eval.fail fault (g token)) :=
  fun _ _ hm => .failed hm ⟨rfl, g, hg, rfl⟩

/-- An operation that does the same in both runs, except that a fault is blamed on a moved token. -/
theorem Matches.ofExcept {R : α → α → Prop} {g : Token → Token} {r : Except RuntimeFault α}
    (hg : S.moves g) (token : Token) (hok : ∀ a, r = .ok a → R a a) :
    S.Matches R (Eval.ofExcept (r.mapError (⟨·, token⟩)))
      (Eval.ofExcept (r.mapError (⟨·, g token⟩))) := by
  cases r with
  | ok a => exact Matches.pure (hok a rfl)
  | error fault => exact Matches.fail hg fault token

/-- Actions match with their last steps, if these keep machines corresponding. -/
theorem Matches.thenAlways {R : α → α' → Prop} {x : Eval α} {x' : Eval α'}
    {change change' : Machine → Machine} (hx : S.Matches R x x')
    (hchange : ∀ n n', S.machine n n' → S.machine (change n) (change' n')) :
    S.Matches R (Eval.thenAlways x change) (Eval.thenAlways x' change') := by
  intro m m' hm
  have h := hx m m' hm
  unfold Eval.thenAlways
  generalize x m = r at h
  generalize x' m' = r' at h
  cases h with
  | ok hn ha => exact .ok (hchange _ _ hn) ha
  | failed hn he => exact .failed (hchange _ _ hn) he
  | excused hhalt => exact .excused hhalt

/-! ## Elementary actions -/

/-- Corresponding frames look up alike values. -/
theorem matches_lookup {f f' : Nat} {g : Token → Token} (hf : S.frame f f') (hg : S.moves g)
    (name : Token) : S.Matches S.Alike (Eval.lookup f name) (Eval.lookup f' (g name)) := by
  intro m m' hm
  have h := S.lookup name.lexeme hm hf
  rw [Eval.lookup_apply, Eval.lookup_apply, (S.isMove hg).lexeme]
  generalize m.scopes.lookup f name.lexeme = found at h
  generalize m'.scopes.lookup f' name.lexeme = found' at h
  cases h with
  | some hv => exact .ok hm hv
  | none => exact .failed hm ⟨rfl, g, hg, rfl⟩

/-- Alike values may be assigned in corresponding frames. -/
theorem matches_assign {f f' : Nat} {g : Token → Token} {v v' : Value} (hf : S.frame f f')
    (hg : S.moves g) (name : Token) (hv : S.Alike v v') :
    S.Matches (fun _ _ => True) (Eval.assign f name v) (Eval.assign f' (g name) v') := by
  intro m m' hm
  rw [Eval.assign_apply, Eval.assign_apply, (S.isMove hg).lexeme]
  exact .ok (S.assign name.lexeme hm hf hv) trivial

/-- Lists of alike items are made alike. -/
theorem matches_newList {items items' : List Value} (h : List.Forall₂ S.Alike items items') :
    S.Matches S.Alike (Eval.newList items) (Eval.newList items') := by
  intro m m' hm
  obtain ⟨hidentity, hissue⟩ := S.issue hm
  exact .ok hissue (.list hidentity h)

/-- A function and its moved copy are made alike. -/
theorem matches_newFunction {g : Token → Token} (hg : S.moves g) (definition : Function) :
    S.Matches S.Alike (Eval.newFunction definition) (Eval.newFunction (definition.move g)) := by
  intro m m' hm
  obtain ⟨hidentity, hissue⟩ := S.issue hm
  exact .ok hissue (.function definition hidentity hg)

/-- Both sides print the same line. -/
theorem matches_print {g : Token → Token} (hg : S.moves g) (keyword : Token) (line : String) :
    S.Matches (fun _ _ => True) (Eval.print keyword line) (Eval.print (g keyword) line) := by
  intro m m' hm
  obtain ⟨hresult, hsink⟩ := S.print line hm
  unfold Eval.print
  generalize m.sink.writeLine line = written at hresult hsink
  generalize m'.sink.writeLine line = written' at hresult hsink
  obtain ⟨result, sink⟩ := written
  obtain ⟨result', sink'⟩ := written'
  cases hresult
  cases result with
  | ok _ => exact .ok hsink trivial
  | error cause => exact .failed hsink ⟨rfl, g, hg, rfl⟩

/-! ## Loops -/

/-- Loops over corresponding elements match if their rounds do. -/
theorem matches_untilReturn {R : α → α' → Prop} {action : α → Eval Flow} {action' : α' → Eval Flow}
    (h : ∀ a a', R a a' → S.Matches S.Flows (action a) (action' a')) {elements : List α}
    {elements' : List α'} (helements : List.Forall₂ R elements elements') :
    S.Matches S.Flows (Eval.untilReturn action elements) (Eval.untilReturn action' elements') := by
  induction helements with
  | nil => exact Matches.pure .next
  | cons ha _ ih =>
    refine (h _ _ ha).bind fun flow flow' hflow => ?_
    cases hflow with
    | next => exact ih
    | returned hv => exact Matches.pure (.returned hv)

/-- While loops match if their rounds do. -/
theorem matches_whileTrue {condition condition' : Eval Bool} {action action' : Eval Flow}
    {fuel fuel' : Nat} (hfuel : fuel ≤ fuel')
    (hcondition : S.Matches (· = ·) condition condition')
    (haction : S.Matches S.Flows action action') :
    S.Matches S.Flows (Eval.whileTrue condition action fuel)
      (Eval.whileTrue condition' action' fuel') := by
  induction fuel generalizing fuel' with
  | zero => exact Matches.exhausted _
  | succ fuel ih =>
    obtain ⟨fuel', rfl⟩ : ∃ n, fuel' = n + 1 := ⟨fuel' - 1, by omega⟩
    refine hcondition.bind fun go go' hgo => ?_
    subst hgo
    cases go with
    | false => exact Matches.pure .next
    | true =>
      refine haction.bind fun flow flow' hflow => ?_
      cases hflow with
      | next => exact ih (by omega)
      | returned hv => exact Matches.pure (.returned hv)

/-- Counting loops match if their rounds do. -/
theorem matches_forNumbers {stop step : Float} {action action' : Float → Eval Flow} (i : Float)
    {fuel fuel' : Nat} (hfuel : fuel ≤ fuel')
    (haction : ∀ i, S.Matches S.Flows (action i) (action' i)) :
    S.Matches S.Flows (Eval.forNumbers stop step action i fuel)
      (Eval.forNumbers stop step action' i fuel') := by
  induction fuel generalizing i fuel' with
  | zero => exact Matches.exhausted _
  | succ fuel ih =>
    obtain ⟨fuel', rfl⟩ : ∃ n, fuel' = n + 1 := ⟨fuel' - 1, by omega⟩
    rw [Eval.forNumbers, Eval.forNumbers]
    split
    · refine (haction i).bind fun flow flow' hflow => ?_
      cases hflow with
      | next => exact ih (i + step) (by omega)
      | returned hv => exact Matches.pure (.returned hv)
    · exact Matches.pure .next

/-! ## Blocks and calls -/

/-- The evaluations of the parts of an expression or statement and of its moved form match. -/
structure MatchesParts (S : Simulation) (p p' : Parts) : Prop where
  eval {f f' : Nat} {g : Token → Token} (hf : S.frame f f') (hg : S.moves g) (e : Expr) :
    S.Matches S.Alike (p.eval f e) (p'.eval f' (e.move g))
  exec {f f' : Nat} {g : Token → Token} (hf : S.frame f f') (hg : S.moves g) (s : Stmt) :
    S.Matches S.Flows (p.exec f s) (p'.exec f' (s.move g))

variable {p p' : Parts} {f f' : Nat} {g : Token → Token}

/-- Arguments are evaluated to alike values. -/
theorem matches_evalEach (hp : S.MatchesParts p p') (hf : S.frame f f') (hg : S.moves g)
    (es : List Expr) :
    S.Matches (List.Forall₂ S.Alike) (p.evalEach f es) (p'.evalEach f' (Expr.moveEach g es)) := by
  induction es with
  | nil => exact Matches.pure .nil
  | cons e es ih =>
    refine (hp.eval hf hg e).bind fun v v' hv => ?_
    exact ih.bind fun vs vs' hvs => Matches.pure (.cons hv hvs)

/-- Statements match one after the other. -/
theorem matches_body (hp : S.MatchesParts p p') (hf : S.frame f f') (hg : S.moves g)
    (body : List Stmt) :
    S.Matches S.Flows (Eval.untilReturn (p.exec f) body)
      (Eval.untilReturn (p'.exec f') (Stmt.moveEach g body)) := by
  apply matches_untilReturn (R := fun s s' => s' = s.move g)
  · rintro s _ rfl
    exact hp.exec hf hg s
  · rw [Stmt.moveEach_eq]
    exact List.forall₂_map_right_iff.mpr (List.forall₂_same.mpr fun _ _ => rfl)

/-- A block matches its moved copy. -/
theorem matches_execBlock (hp : S.MatchesParts p p') (hf : S.frame f f') (hg : S.moves g)
    (body : List Stmt) :
    S.Matches S.Flows (p.execBlock f body) (p'.execBlock f' (Stmt.moveEach g body)) := by
  intro m m' hm
  obtain ⟨hsize, henter⟩ := S.enter hm hf
  rw [Parts.execBlock_apply, Parts.execBlock_apply]
  exact (matches_body hp hsize hg body).thenAlways (fun _ _ hn => S.leave hm hn) _ _ henter

/-- Parameters bound to alike values are alike. -/
theorem alike_bindParameters (hg : S.moves g) (parameters : List Token)
    {values values' : List Value} (h : List.Forall₂ S.Alike values values') :
    (Parts.bindParameters parameters values).Alike S.toLikeness
      (Parts.bindParameters (parameters.map g) values') := by
  suffices hfold : ∀ (bindings bindings' : Bindings), bindings.Alike S.toLikeness bindings' →
      Bindings.Alike S.toLikeness
        ((parameters.zip values).foldl Parts.bindPair bindings)
        (((parameters.map g).zip values').foldl Parts.bindPair bindings') from
    hfold [] [] .nil
  induction h generalizing parameters with
  | nil => simp
  | cons hv _ ih =>
    intro bindings bindings' hbindings
    cases parameters with
    | nil => simpa using hbindings
    | cons parameter parameters =>
      simp only [List.map_cons, List.zip_cons_cons, List.foldl_cons, Parts.bindPair,
        (S.isMove hg).lexeme]
      exact ih parameters _ _ (hbindings.set parameter.lexeme hv)

/-- The body of a function matches its moved copy on alike arguments. -/
theorem matches_runBody (hp : S.MatchesParts p p') (hg : S.moves g) (function : Function)
    {values values' : List Value} (hvalues : List.Forall₂ S.Alike values values') :
    S.Matches S.Flows (p.runBody function values) (p'.runBody (function.move g) values') := by
  intro m m' hm
  obtain ⟨hsize, hcall⟩ := S.call hm (alike_bindParameters hg function.parameters hvalues)
  exact (matches_body hp hsize hg function.body).thenAlways (fun _ _ hn => S.comeBack hm hn) _ _
    hcall

/-- Matching flows have alike results. -/
theorem Flows.result {flow flow' : Flow} (h : S.Flows flow flow') :
    S.Alike flow.result flow'.result := by
  cases h with
  | next => exact .none
  | returned hv => exact hv

/-- An invocation matches its moved copy on alike arguments. -/
theorem matches_invoke (hp : S.MatchesParts p p') {h : Token → Token} (hg : S.moves g)
    (hh : S.moves h) (name : Token) (function : Function) {values values' : List Value}
    (hvalues : List.Forall₂ S.Alike values values') :
    S.Matches S.Alike (p.invoke name function values)
      (p'.invoke (h name) (function.move g) values') := by
  intro m m' hm
  rw [Parts.invoke_apply, Parts.invoke_apply]
  by_cases hdeep : m.depthLimit ≤ m.depth
  · rw [if_pos hdeep]
    rcases S.tooDeep hm hdeep with hdeep' | hexcused
    · rw [if_pos hdeep']
      exact .failed hm ⟨rfl, h, hh, rfl⟩
    · exact .excused (hexcused name)
  · have hdeep' : ¬ m'.depthLimit ≤ m'.depth := fun h => hdeep (S.notTooDeep hm h)
    rw [if_neg hdeep, if_neg hdeep']
    exact (matches_runBody hp hg function hvalues).bind
      (fun _ _ hflow => Matches.pure hflow.result) m m' hm

/-- A call matches its moved copy. -/
theorem matches_call (hp : S.MatchesParts p p') (hf : S.frame f f') (hg : S.moves g) (name : Token)
    (arguments : List Expr) :
    S.Matches S.Alike (p.call f name arguments)
      (p'.call f' (g name) (Expr.moveEach g arguments)) := by
  refine (matches_lookup hf hg name).bind fun v v' hv => ?_
  cases hv with
  | @function i i' h function hi hh =>
    simp only [Function.move, List.length_map, Expr.moveEach_eq]
    split
    · exact Matches.fail hg _ _
    · rw [← Expr.moveEach_eq]
      exact (matches_evalEach hp hf hg arguments).bind fun values values' hvalues =>
        matches_invoke hp hh hg name function hvalues
  | _ => exact Matches.fail hg _ _

/-- A position matches its moved copy. -/
theorem matches_position (hp : S.MatchesParts p p') (hf : S.frame f f') (hg : S.moves g)
    (name : Token) (e : Expr) :
    S.Matches (· = ·) (p.position f name e) (p'.position f' (g name) (e.move g)) := by
  refine (hp.eval hf hg e).bind fun v v' hv => ?_
  rw [hv.position?_eq]
  split
  · exact Matches.pure rfl
  · exact Matches.fail hg _ _

/-- A bound matches its moved copy. -/
theorem matches_bound (hp : S.MatchesParts p p') (hf : S.frame f f') (hg : S.moves g)
    (name : Token) (e : Expr) :
    S.Matches (· = ·) (p.bound f name e) (p'.bound f' (g name) (e.move g)) := by
  refine (hp.eval hf hg e).bind fun v v' hv => ?_
  cases hv with
  | number x => exact Matches.pure rfl
  | _ => exact Matches.fail hg _ _

/-- A bound that may be left out matches its moved copy. -/
theorem matches_boundOr (hp : S.MatchesParts p p') (hf : S.frame f f') (hg : S.moves g)
    (name : Token) (otherwise : Float) (e : Option Expr) :
    S.Matches (· = ·) (p.boundOr f name otherwise e)
      (p'.boundOr f' (g name) otherwise (e.map (Expr.move g))) := by
  cases e with
  | none => exact Matches.pure rfl
  | some e => exact matches_bound hp hf hg name e

/-! ## Selections -/

/-- Alike values have alike elements. -/
theorem matches_element (hg : S.moves g) (name : Token) {v v' : Value} (hv : S.Alike v v')
    (i : Int) : S.Matches S.Alike (Value.element name v i) (Value.element (g name) v' i) := by
  cases hv with
  | list hi hitems =>
    simp only [Value.element]
    rcases Selection.element_cases hitems i with ⟨item, item', hok, hok', hitem⟩ |
      ⟨_, hfault, hfault'⟩
    · rw [hok, hok']
      exact Matches.pure hitem
    · rw [hfault, hfault']
      exact Matches.fail hg _ _
  | string contents =>
    simp only [Value.element]
    split
    · exact Matches.pure (.string _)
    · exact Matches.fail hg _ _
  | _ => exact Matches.fail hg _ _

/-- Alike values have alike slices. -/
theorem matches_slice (hg : S.moves g) (name : Token) {v v' : Value} (hv : S.Alike v v')
    (i j k : Int) :
    S.Matches S.Alike (Value.slice name v i j k) (Value.slice (g name) v' i j k) := by
  cases hv with
  | list hi hitems =>
    simp only [Value.slice]
    rcases Selection.slice_cases hitems i j k with ⟨found, found', hok, hok', hfound⟩ |
      ⟨_, hfault, hfault'⟩
    · rw [hok, hok']
      exact matches_newList hfound
    · rw [hfault, hfault']
      exact Matches.fail hg _ _
  | string contents =>
    simp only [Value.slice]
    split
    · exact Matches.pure (.string _)
    · exact Matches.fail hg _ _
  | _ => exact Matches.fail hg _ _

/-! ## Expressions and statements -/

/-- Every form of expression matches its moved form if its parts do. -/
theorem matches_evalWith (hp : S.MatchesParts p p') (hf : S.frame f f') (hg : S.moves g)
    (e : Expr) : S.Matches S.Alike (e.evalWith p f) ((e.move g).evalWith p' f') := by
  cases e with
  | literal value => exact Matches.pure (.ofLiteral value)
  | «variable» name => exact matches_lookup hf hg name
  | grouping inner => exact hp.eval hf hg inner
  | unary operator operand =>
    refine (hp.eval hf hg operand).bind fun v v' hv => ?_
    rw [Value.unary, Value.unary, (S.isMove hg).kind, ← hv.unaryFault_eq]
    exact Matches.ofExcept hg operator fun w hw => .of_isPlain (Value.isPlain_unaryFault hw)
  | binary left operator right =>
    refine (hp.eval hf hg left).bind fun v v' hv => ?_
    refine (hp.eval hf hg right).bind fun w w' hw => ?_
    rw [Value.binary, Value.binary, (S.isMove hg).kind, ← hv.binaryFault_eq _ hw]
    exact Matches.ofExcept hg operator fun u hu => .of_isPlain (Value.isPlain_binaryFault hu)
  | logical left operator right =>
    refine (hp.eval hf hg left).bind fun v v' hv => ?_
    rw [hv.decides_eq hg]
    split
    · exact Matches.pure hv
    · exact hp.eval hf hg right
  | assign name value =>
    refine (hp.eval hf hg value).bind fun v v' hv => ?_
    exact (matches_assign hf hg name hv).bind fun _ _ _ => Matches.pure hv
  | list items => exact (matches_evalEach hp hf hg items).bind fun _ _ hvs => matches_newList hvs
  | element name position =>
    refine (matches_lookup hf hg name).bind fun v v' hv => ?_
    refine (matches_position hp hf hg name position).bind fun i i' hi => ?_
    exact hi ▸ matches_element hg name hv i
  | slice name start stop =>
    refine (matches_lookup hf hg name).bind fun v v' hv => ?_
    refine (matches_position hp hf hg name start).bind fun i i' hi => ?_
    refine (matches_position hp hf hg name stop).bind fun j j' hj => ?_
    exact hi ▸ hj ▸ matches_slice hg name hv i j 1
  | stride name start stop step =>
    refine (matches_lookup hf hg name).bind fun v v' hv => ?_
    refine (matches_position hp hf hg name start).bind fun i i' hi => ?_
    refine (matches_position hp hf hg name stop).bind fun j j' hj => ?_
    refine (matches_position hp hf hg name step).bind fun k k' hk => ?_
    exact hi ▸ hj ▸ hk ▸ matches_slice hg name hv i j k
  | call name arguments => exact matches_call hp hf hg name arguments

/-- An alternative matches its moved copy. -/
theorem matches_alternative (hp : S.MatchesParts p p') (hf : S.frame f f') (hg : S.moves g)
    (otherwise : Alternative) :
    S.Matches S.Flows (otherwise.execWith p f) ((otherwise.move g).execWith p' f') := by
  induction otherwise using Alternative.execWith.induct with
  | case1 => exact Matches.pure .next
  | case2 condition body otherwise ih =>
    rw [Alternative.move, Alternative.execWith, Alternative.execWith]
    refine (hp.eval hf hg condition).bind fun v v' hv => ?_
    rw [hv.isTruthy_eq]
    split
    · exact matches_execBlock hp hf hg body
    · exact ih
  | case3 body => exact matches_execBlock hp hf hg body

/-- A round of a loop that assigns its variable and executes a block. -/
theorem matches_round (hp : S.MatchesParts p p') (hf : S.frame f f') (hg : S.moves g) (name : Token)
    (body : List Stmt) {v v' : Value} (hv : S.Alike v v') :
    S.Matches S.Flows (do Eval.assign f name v; p.execBlock f body)
      (do Eval.assign f' (g name) v'; p'.execBlock f' (Stmt.moveEach g body)) :=
  (matches_assign hf hg name hv).bind fun _ _ _ => matches_execBlock hp hf hg body

/-- Every form of statement matches its moved form if its parts do. -/
theorem matches_execWith (hp : S.MatchesParts p p') (hf : S.frame f f') (hg : S.moves g)
    {fuel fuel' : Nat} (hfuel : fuel ≤ fuel') (s : Stmt) :
    S.Matches S.Flows (s.execWith fuel p f) ((s.move g).execWith fuel' p' f') := by
  cases s with
  | expression value => exact (hp.eval hf hg value).bind fun _ _ _ => Matches.pure .next
  | print keyword value =>
    refine (hp.eval hf hg value).bind fun v v' hv => ?_
    rw [← hv.text_eq]
    exact (matches_print hg keyword v.text).bind fun _ _ _ => Matches.pure .next
  | assign name value =>
    refine (hp.eval hf hg value).bind fun v v' hv => ?_
    exact (matches_assign hf hg name hv).bind fun _ _ _ => Matches.pure .next
  | block body => exact matches_execBlock hp hf hg body
  | branch condition body otherwise =>
    refine (hp.eval hf hg condition).bind fun v v' hv => ?_
    rw [hv.isTruthy_eq]
    split
    · exact matches_execBlock hp hf hg body
    · exact matches_alternative hp hf hg otherwise
  | loop condition body =>
    apply matches_whileTrue hfuel _ (matches_execBlock hp hf hg body)
    rw [map_eq_pure_bind, map_eq_pure_bind]
    exact (hp.eval hf hg condition).bind fun v v' hv => Matches.pure hv.isTruthy_eq
  | forRange name start stop step body =>
    refine (matches_boundOr hp hf hg name 0.0 start).bind fun i i' hi => ?_
    refine (matches_bound hp hf hg name stop).bind fun j j' hj => ?_
    refine (matches_boundOr hp hf hg name 1.0 step).bind fun k k' hk => ?_
    subst hi hj hk
    split
    · exact Matches.fail hg _ _
    · exact matches_forNumbers i hfuel fun x => matches_round hp hf hg name body (.number x)
  | forEach name iterable body =>
    refine (hp.eval hf hg iterable).bind fun v v' hv => ?_
    have helements := hv.elements?
    generalize v.elements? = items at helements
    generalize v'.elements? = items' at helements
    cases helements with
    | none => exact Matches.fail hg _ _
    | some hitems =>
      exact matches_untilReturn (fun _ _ hitem => matches_round hp hf hg name body hitem) hitems
  | define name parameters body =>
    refine (matches_newFunction hg ⟨name, parameters, body⟩).bind fun v v' hv => ?_
    exact (matches_assign hf hg name hv).bind fun _ _ _ => Matches.pure .next
  | «return» keyword value =>
    cases value with
    | none => exact Matches.pure (.returned .none)
    | some e => exact (hp.eval hf hg e).bind fun _ _ hv => Matches.pure (.returned hv)

/-- Evaluation with more fuel matches evaluation with less. -/
theorem matchesParts (S : Simulation) {fuel fuel' : Nat} (hfuel : fuel ≤ fuel') :
    S.MatchesParts (Parts.withFuel fuel) (Parts.withFuel fuel') := by
  induction fuel generalizing fuel' with
  | zero => exact ⟨fun _ _ _ => Matches.exhausted _, fun _ _ _ => Matches.exhausted _⟩
  | succ fuel ih =>
    obtain ⟨fuel', rfl⟩ : ∃ n, fuel' = n + 1 := ⟨fuel' - 1, by omega⟩
    -- One form of the tree uses up one unit of fuel in both runs.
    have hp := ih (Nat.le_of_succ_le_succ hfuel)
    exact ⟨fun hf hg e => matches_evalWith hp hf hg e,
      fun hf hg s => matches_execWith hp hf hg (Nat.le_of_succ_le_succ hfuel) s⟩

end Simulation

end Offside
