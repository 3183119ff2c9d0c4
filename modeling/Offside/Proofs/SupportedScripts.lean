import Offside.Proofs.Scripts
import Offside.Proofs.SupportedTrees

/-!
# Supported scripts

What a supported expression or statement has evaluated is supported again: its script asks for
supported parts only, puts only supported values into the state, and finds no operator that is not
supported. A value is supported if all functions in it have supported bodies, so that a script may
also call what it finds.
-/

namespace Offside

/-- A function with a supported body. -/
def Function.Supported (function : Function) : Prop := Stmt.BodySupported function.body

/-- All functions in a value have supported bodies. -/
inductive Value.Supported : Value → Prop
  | plain {v : Value} : v.isPlain → Supported v
  | list (i : Nat) {items : List Value} : (∀ v ∈ items, Supported v) → Supported (.list i items)
  | function (i : Nat) {definition : Function} : definition.Supported →
    Supported (.function i definition)

/-- All functions in a returned value have supported bodies. -/
def Flow.Supported (flow : Flow) : Prop := flow.result.Supported

namespace Value.Supported

/-- The items of a supported list are supported. -/
theorem item {i : Nat} {items : List Value} {v : Value} (h : (Value.list i items).Supported)
    (hv : v ∈ items) : v.Supported := by
  cases h with
  | plain hplain => cases hplain
  | list _ hitems => exact hitems v hv

/-- A supported function value has a supported definition. -/
theorem definition {i : Nat} {function : Function} (h : (Value.function i function).Supported) :
    function.Supported := by
  cases h with
  | plain hplain => cases hplain
  | function _ hfunction => exact hfunction

/-- What a loop visits in a supported value is supported. -/
theorem elements {v item : Value} {items : List Value} (h : v.Supported)
    (hitems : v.elements? = some items) (hitem : item ∈ items) : item.Supported := by
  unfold Value.elements? at hitems
  split at hitems
  · cases hitems
    exact h.item hitem
  · cases hitems
    obtain ⟨c, -, rfl⟩ := List.mem_map.mp hitem
    exact .plain rfl
  · cases hitems

end Value.Supported

/-! ## Operators -/

/-- A unary operator of the language is never unsupported. -/
theorem Value.unaryFault_supported {kind : Kind} (h : kind ∈ Expr.prefixOperators)
    (operand : Value) : Value.unaryFault kind operand ≠ .error .unsupportedOperator := by
  simp only [Expr.prefixOperators, List.mem_cons, List.not_mem_nil, or_false] at h
  rcases h with rfl | rfl
  · simp [Value.unaryFault]
  · cases operand <;> simp [Value.unaryFault]

/-- Asking for two numbers reports no unsupported operator. -/
theorem Value.numbers_supported (left right : Value)
    {g : Float × Float → Except RuntimeFault Value}
    (hg : ∀ pair, g pair ≠ .error .unsupportedOperator) :
    (Value.numbers? left right >>= g) ≠ .error .unsupportedOperator := by
  unfold Value.numbers?
  split
  · exact hg _
  · simp [Bind.bind, Except.bind]

/-- A binary operator of the language is never unsupported. -/
theorem Value.binaryFault_supported {kind : Kind} (h : kind ∈ binaryOperators)
    (left right : Value) : Value.binaryFault kind left right ≠ .error .unsupportedOperator := by
  unfold Value.binaryFault
  split
  case h_1 =>
    unfold Value.add
    split <;> simp
  case h_4 =>
    refine Value.numbers_supported left right fun pair => ?_
    dsimp only
    split <;> simp [throw, throwThe, MonadExceptOf.throw, Pure.pure, Except.pure]
  case h_11 | h_12 => simp
  case h_13 => simp_all [binaryOperators]
  all_goals exact Value.numbers_supported left right fun _ => by simp [Pure.pure, Except.pure]

/-! ## Scripts -/

/-- An act that puts nothing unsupported into the state and reports no unsupported operator. -/
def Act.Supported : Act → Prop
  | .assign _ _ value => value.Supported
  | .fail e _ => e.fault ≠ .unsupportedOperator
  | .lookup _ _ | .issue | .print _ _ => True

/-- What is known of the answer to an act. -/
def Act.Gives : (a : Act) → a.Answer → Prop
  | .lookup _ _, v => Value.Supported v
  | .assign _ _ _, _ | .issue, _ | .print _ _, _ | .fail _ _, _ => True

/-- A script that has only supported parts evaluated as long as their values are supported, and
whose result satisfies `K`. -/
def Script.Supported {α : Type} (K : α → Prop) : Script α → Prop
  | .done a => K a
  | .exhausted => True
  | .act a next => a.Supported ∧ ∀ v, a.Gives v → (next v).Supported K
  | .eval _ e next => e.Supported ∧ ∀ v, v.Supported → (next v).Supported K
  | .each _ es next =>
    Expr.EachSupported es ∧ ∀ vs, (∀ v ∈ vs, Value.Supported v) → (next vs).Supported K
  | .block _ body next =>
    Stmt.BodySupported body ∧ ∀ flow, flow.Supported → (next flow).Supported K
  | .call _ _ arguments next =>
    Expr.EachSupported arguments ∧ ∀ v, v.Supported → (next v).Supported K

/-- Supported scripts may follow each other. -/
theorem Script.Supported.bind {α β : Type} {K : α → Prop} {L : β → Prop} {s : Script α}
    {k : α → Script β} (hs : s.Supported K) (hk : ∀ a, K a → (k a).Supported L) :
    (s.bind k).Supported L := by
  induction s with
  | done a => exact hk a hs
  | exhausted => trivial
  | act a next ih => exact ⟨hs.1, fun v hv => ih v (hs.2 v hv)⟩
  | eval f e next ih => exact ⟨hs.1, fun v hv => ih v (hs.2 v hv)⟩
  | each f es next ih => exact ⟨hs.1, fun vs hvs => ih vs (hs.2 vs hvs)⟩
  | block f body next ih => exact ⟨hs.1, fun flow hflow => ih flow (hs.2 flow hflow)⟩
  | call f name arguments next ih => exact ⟨hs.1, fun v hv => ih v (hs.2 v hv)⟩

namespace Scripted

variable {α β : Type} {K : α → Prop} {L : β → Prop}

/-- The script of an action is supported. -/
def Supported {action : Parts → Eval α} (K : α → Prop) (s : Scripted action) : Prop :=
  s.script.Supported K

/-- A supported result is a supported script. -/
theorem supported_pure {a : α} (h : K a) : (Scripted.pure a).Supported K := h

/-- Support does not depend on how the action is written. -/
theorem Supported.ofEq {x y : Parts → Eval α} {s : Scripted x} (hs : s.Supported K)
    (h : ∀ p, x p = y p) : (s.ofEq h).Supported K :=
  hs

/-- Supported actions may follow each other. -/
theorem Supported.bind {x : Parts → Eval α} {k : α → Parts → Eval β} {s : Scripted x}
    {next : (a : α) → Scripted (k a)} (hs : s.Supported K)
    (hnext : ∀ a, K a → (next a).Supported L) : (s.bind next).Supported L :=
  Script.Supported.bind hs hnext

/-- Either of two supported actions may be chosen. -/
theorem Supported.ite {c : Prop} [Decidable c] {x y : Parts → Eval α} {s : Scripted x}
    {t : Scripted y} (hs : s.Supported K) (ht : t.Supported K) :
    (Scripted.ite (c := c) s t).Supported K := by
  unfold Supported Scripted.ite
  split
  · exact hs
  · exact ht

/-- Every failure is supported but the unsupported operator. -/
theorem supported_fail {fault : RuntimeFault} (h : fault ≠ .unsupportedOperator) (token : Token)
    (hfault : fault.isLimit = false) :
    Scripted.Supported K
      (Scripted.fail fault token hfault : Scripted fun _ => (Eval.fail fault token : Eval α)) :=
  ⟨h, nofun⟩

/-- So is a check of values that does not report it. -/
theorem supported_ofExcept {r : Except RuntimeFault α} (hok : ∀ a, r = .ok a → K a)
    (herror : r ≠ .error .unsupportedOperator) (token : Token) (hr : FailsByValues r) :
    (Scripted.ofExcept token r hr).Supported K := by
  cases r with
  | ok a => exact hok a rfl
  | error fault => exact supported_fail (fun heq => herror (congrArg _ heq)) token hr

/-- A lookup gives a supported value. -/
theorem supported_lookup (f : Nat) (name : Token) :
    (Scripted.lookup f name).Supported Value.Supported :=
  ⟨trivial, fun _ hv => hv⟩

/-- A supported value may be assigned. -/
theorem supported_assign {v : Value} (hv : v.Supported) (f : Nat) (name : Token) :
    (Scripted.assign f name v).Supported fun _ => True :=
  ⟨hv, fun _ _ => trivial⟩

/-- A new list of supported items is supported. -/
theorem supported_newList {items : List Value} (h : ∀ v ∈ items, v.Supported) :
    (Scripted.newList items).Supported Value.Supported :=
  ⟨trivial, fun i _ => .list i h⟩

/-- A new function with a supported definition is supported. -/
theorem supported_newFunction {definition : Function} (h : definition.Supported) :
    (Scripted.newFunction definition).Supported Value.Supported :=
  ⟨trivial, fun i _ => .function i h⟩

/-- Printing is supported. -/
theorem supported_print (keyword : Token) (line : String) :
    (Scripted.print keyword line).Supported fun _ => True :=
  ⟨trivial, fun _ _ => trivial⟩

/-- A supported expression gives a supported value. -/
theorem supported_eval {e : Expr} (h : e.Supported) (f : Nat) :
    (Scripted.eval f e).Supported Value.Supported :=
  ⟨h, fun _ hv => hv⟩

/-- Supported arguments give supported values. -/
theorem supported_each {es : List Expr} (h : Expr.EachSupported es) (f : Nat) :
    (Scripted.each f es).Supported fun vs => ∀ v ∈ vs, v.Supported :=
  ⟨h, fun _ hvs => hvs⟩

/-- A supported block is a supported script. -/
theorem supported_block {body : List Stmt} (h : Stmt.BodySupported body) (f : Nat) :
    (Scripted.block f body).Supported Flow.Supported :=
  ⟨h, fun _ hflow => hflow⟩

/-- A call with supported arguments gives a supported value. -/
theorem supported_call {arguments : List Expr} (h : Expr.EachSupported arguments) (f : Nat)
    (name : Token) : (Scripted.call f name arguments).Supported Value.Supported :=
  ⟨h, fun _ hv => hv⟩

/-- A position is a supported script. -/
theorem supported_position {e : Expr} (h : e.Supported) (f : Nat) (name : Token) :
    (Scripted.position f name e).Supported fun _ => True := by
  refine (supported_eval h f).bind fun v _ => ?_
  generalize Selection.position? v = found
  cases found with
  | some i => trivial
  | none => exact supported_fail (by simp) name rfl

/-- So is a bound. -/
theorem supported_bound {e : Expr} (h : e.Supported) (f : Nat) (name : Token) :
    (Scripted.bound f name e).Supported fun _ => True := by
  refine (supported_eval h f).bind fun v _ => ?_
  cases v with
  | number x => trivial
  | _ => exact supported_fail (by simp) name rfl

/-- So is a bound that may be left out. -/
theorem supported_boundOr {e : Option Expr} (h : Expr.OptionalSupported e) (f : Nat) (name : Token)
    (otherwise : Float) : (Scripted.boundOr f name otherwise e).Supported fun _ => True := by
  cases e with
  | none => trivial
  | some e => exact supported_bound h f name

/-- What a loop does behind a round. -/
theorem supported_untilReturn {action : α → Parts → Eval Flow} {s : (a : α) → Scripted (action a)}
    {as : List α} (h : ∀ a ∈ as, (s a).Supported Flow.Supported) :
    (Scripted.untilReturn s as).Supported Flow.Supported := by
  induction as with
  | nil => exact .plain rfl
  | cons a as ih =>
    rw [List.forall_mem_cons] at h
    refine Supported.bind h.1 fun flow hflow => ?_
    cases flow with
    | next => exact ih h.2
    | returned v => exact hflow

/-- A while loop is a supported script if its condition and its rounds are. -/
theorem supported_whileTrue {condition : Parts → Eval Bool} {action : Parts → Eval Flow}
    {s : Scripted condition} {t : Scripted action} (hs : s.Supported fun _ => True)
    (ht : t.Supported Flow.Supported) (fuel : Nat) :
    (Scripted.whileTrue s t fuel).Supported Flow.Supported := by
  induction fuel with
  | zero => trivial
  | succ fuel ih =>
    refine Supported.bind hs fun go _ => Supported.ite ?_ (.plain rfl)
    refine Supported.bind ht fun flow hflow => ?_
    cases flow with
    | next => exact ih
    | returned v => exact hflow

/-- A counting loop is a supported script if its rounds are. -/
theorem supported_forNumbers (stop step : Float) {action : Float → Parts → Eval Flow}
    {s : (i : Float) → Scripted (action i)} (hs : ∀ i, (s i).Supported Flow.Supported) (i : Float)
    (fuel : Nat) : (Scripted.forNumbers stop step s i fuel).Supported Flow.Supported := by
  induction fuel generalizing i with
  | zero => trivial
  | succ fuel ih =>
    refine Supported.ite ?_ (.plain rfl)
    refine Supported.bind (hs i) fun flow hflow => ?_
    cases flow with
    | next => exact ih (i + step)
    | returned v => exact hflow

/-- A round of a loop over a supported element is a supported script. -/
theorem supported_round {body : List Stmt} (h : Stmt.BodySupported body) {v : Value}
    (hv : v.Supported) (f : Nat) (name : Token) :
    (Scripted.round f name body v).Supported Flow.Supported :=
  (supported_assign hv f name).bind fun _ _ => supported_block h f

/-- An action behind a check of values is supported if it is so for every value that passes. -/
theorem supported_attempt {x : α → Parts → Eval β} {r : Except RuntimeFault α}
    {s : (a : α) → Scripted (x a)} (hs : ∀ a, r = .ok a → (s a).Supported L)
    (herror : r ≠ .error .unsupportedOperator) (hr : FailsByValues r) (name : Token) :
    (Scripted.attempt r hr name s).Supported L := by
  cases r with
  | ok a => exact hs a rfl
  | error fault => exact supported_fail (fun heq => herror (congrArg _ heq)) name hr

end Scripted

/-- Selecting an element reports no unsupported operator. -/
theorem Selection.element_supported {α : Type} (items : List α) (position : Int) :
    Selection.element items position ≠ .error .unsupportedOperator := by
  unfold Selection.element
  split <;> simp

/-- Nor does slicing. -/
theorem Selection.slice_supported {α : Type} (items : List α) (start stop step : Int) :
    Selection.slice items start stop step ≠ .error .unsupportedOperator := by
  unfold Selection.slice
  split
  · simp
  · dsimp only
    split <;> simp

/-- An element of a supported value is supported. -/
theorem Scripted.supported_element {target : Value} (h : target.Supported) (name : Token)
    (position : Int) : (Scripted.element name position target).Supported Value.Supported := by
  cases target with
  | list i items =>
    exact supported_ofExcept (fun v hv => h.item (Selection.mem_of_element hv))
      (Selection.element_supported items position) name _
  | string contents =>
    unfold Scripted.element
    refine Supported.ofEq (supported_attempt (fun c _ => ?_) ?_ _ name) _
    · exact supported_pure (.plain rfl)
    · exact Selection.element_supported contents.toList position
  | _ => exact supported_fail (by simp) name rfl

/-- A slice of a supported value is supported. -/
theorem Scripted.supported_slice {target : Value} (h : target.Supported) (name : Token)
    (start stop step : Int) :
    (Scripted.slice name start stop step target).Supported Value.Supported := by
  cases target with
  | list i items =>
    unfold Scripted.slice
    refine Supported.ofEq (supported_attempt (fun found hfound => ?_) ?_ _ name) _
    · exact supported_newList fun v hv => h.item (Selection.mem_of_mem_slice hfound hv)
    · exact Selection.slice_supported items start stop step
  | string contents =>
    unfold Scripted.slice
    refine Supported.ofEq (supported_attempt (fun found _ => ?_) ?_ _ name) _
    · exact supported_pure (.plain rfl)
    · exact Selection.slice_supported contents.toList start stop step
  | _ => exact supported_fail (by simp) name rfl

/-! ## Expressions and statements -/

open Scripted

/-- The script of a supported expression is supported. -/
theorem Expr.supported_scripted {e : Expr} (h : e.Supported) (f : Nat) :
    (e.scripted f).Supported Value.Supported := by
  cases e with
  | literal value => exact Value.Supported.plain (by cases value <;> rfl)
  | «variable» name => exact supported_lookup f name
  | grouping inner =>
    rw [Expr.Supported] at h
    exact supported_eval h f
  | unary operator operand =>
    rw [Expr.Supported] at h
    obtain ⟨hkind, -, hoperand⟩ := h
    refine (supported_eval hoperand f).bind fun v _ => ?_
    exact supported_ofExcept (fun w hw => .plain (Value.isPlain_unaryFault hw))
      (Value.unaryFault_supported hkind v) operator _
  | binary left operator right =>
    rw [Expr.Supported] at h
    obtain ⟨hkind, hleft, hright⟩ := h
    refine (supported_eval hleft f).bind fun v _ => (supported_eval hright f).bind fun w _ => ?_
    exact supported_ofExcept (fun x hx => .plain (Value.isPlain_binaryFault hx))
      (Value.binaryFault_supported hkind v w) operator _
  | logical left operator right =>
    rw [Expr.Supported] at h
    obtain ⟨-, hleft, hright⟩ := h
    exact (supported_eval hleft f).bind fun v hv => Supported.ite hv (supported_eval hright f)
  | assign name value =>
    rw [Expr.Supported] at h
    exact (supported_eval h f).bind fun v hv => (supported_assign hv f name).bind fun _ _ => hv
  | list items =>
    rw [Expr.Supported] at h
    exact (supported_each h f).bind fun vs hvs => supported_newList hvs
  | element name position =>
    rw [Expr.Supported] at h
    exact (supported_lookup f name).bind fun target htarget =>
      (supported_position h f name).bind fun i _ => supported_element htarget name i
  | slice name start stop =>
    rw [Expr.Supported] at h
    exact (supported_lookup f name).bind fun target htarget =>
      (supported_position h.1 f name).bind fun i _ =>
        (supported_position h.2 f name).bind fun j _ => supported_slice htarget name i j 1
  | stride name start stop step =>
    rw [Expr.Supported] at h
    exact (supported_lookup f name).bind fun target htarget =>
      (supported_position h.1 f name).bind fun i _ =>
        (supported_position h.2.1 f name).bind fun j _ =>
          (supported_position h.2.2 f name).bind fun k _ => supported_slice htarget name i j k
  | call name arguments =>
    rw [Expr.Supported] at h
    exact supported_call h f name

/-- The script of a supported alternative is supported. -/
theorem Alternative.supported_scripted : ∀ {a : Alternative}, a.Supported → ∀ f : Nat,
    (a.scripted f).Supported Flow.Supported
  | .nothing, _, _ => Value.Supported.plain rfl
  | .another condition body otherwise, h, f => by
    rw [Alternative.Supported] at h
    obtain ⟨hcondition, hbody, hotherwise⟩ := h
    exact (supported_eval hcondition f).bind fun _ _ =>
      Supported.ite (supported_block hbody f) (Alternative.supported_scripted hotherwise f)
  | .last body, h, f => by
    rw [Alternative.Supported] at h
    exact supported_block h f

/-- The script of a supported statement is supported. -/
theorem Stmt.supported_scripted {s : Stmt} (h : s.Supported) (fuel f : Nat) :
    (s.scripted fuel f).Supported Flow.Supported := by
  have hnext : Flow.Supported .next := .plain rfl
  cases s with
  | expression value =>
    rw [Stmt.Supported] at h
    exact (supported_eval h f).bind fun _ _ => hnext
  | print keyword value =>
    rw [Stmt.Supported] at h
    exact (supported_eval h f).bind fun v _ =>
      (supported_print keyword v.text).bind fun _ _ => hnext
  | assign name value =>
    rw [Stmt.Supported] at h
    exact (supported_eval h f).bind fun v hv => (supported_assign hv f name).bind fun _ _ => hnext
  | block body =>
    rw [Stmt.Supported] at h
    exact supported_block h f
  | branch condition body otherwise =>
    rw [Stmt.Supported] at h
    obtain ⟨hcondition, hbody, hotherwise⟩ := h
    exact (supported_eval hcondition f).bind fun _ _ =>
      Supported.ite (supported_block hbody f) (Alternative.supported_scripted hotherwise f)
  | loop condition body =>
    rw [Stmt.Supported] at h
    have hcondition : ((Scripted.eval f condition).bind fun v =>
        Scripted.pure v.isTruthy).Supported fun _ => True :=
      (supported_eval h.1 f).bind fun _ _ => supported_pure trivial
    exact supported_whileTrue (hcondition.ofEq _) (supported_block h.2 f) fuel
  | forRange name start stop step body =>
    rw [Stmt.Supported] at h
    obtain ⟨hstart, hstop, hstep, hbody⟩ := h
    refine (supported_boundOr hstart f name 0.0).bind fun i _ =>
      (supported_bound hstop f name).bind fun j _ =>
        (supported_boundOr hstep f name 1.0).bind fun k _ => Supported.ite ?_ ?_
    · exact supported_fail (by simp) name rfl
    · exact supported_forNumbers j k (fun x => supported_round hbody (.plain rfl) f name) i fuel
  | forEach name iterable body =>
    rw [Stmt.Supported] at h
    refine (supported_eval h.1 f).bind fun v hv => ?_
    have hitems {items : List Value} (helements : v.elements? = some items) :
        ∀ item ∈ items, item.Supported :=
      fun item hitem => hv.elements helements hitem
    generalize v.elements? = found at hitems
    cases found with
    | none => exact supported_fail (by simp) name rfl
    | some items =>
      exact supported_untilReturn fun item hitem =>
        supported_round h.2 (hitems rfl item hitem) f name
  | define name parameters body =>
    rw [Stmt.Supported] at h
    have hfunction : Function.Supported ⟨name, parameters, body⟩ := h
    exact (supported_newFunction hfunction).bind fun v hv =>
      (supported_assign hv f name).bind fun _ _ => hnext
  | «return» keyword value =>
    rw [Stmt.Supported] at h
    cases value with
    | none => exact Value.Supported.plain rfl
    | some e => exact (supported_eval h f).bind fun v hv => hv

end Offside
