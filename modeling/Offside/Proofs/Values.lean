import Offside.Evaluation

/-!
# Values without an identity

Operators yield numbers, strings and Booleans only, so that the identities of their operands do not
live on in the result. Slices and elements come out of the list that they are taken from. None of
these operations can fail because of a limit of the machine.
-/

namespace Offside

/-- Renaming the error leaves a success alone. -/
theorem ok_of_mapError {α ε ε' : Type} {x : Except ε α} {g : ε → ε'} {a : α}
    (h : x.mapError g = .ok a) : x = .ok a := by
  cases x with
  | error e => cases h
  | ok b =>
    cases h
    rfl

namespace Value

/-- Whether a value has no identity. -/
def isPlain : Value → Bool
  | .number _ | .string _ | .boolean _ | .none => true
  | .list _ _ | .function _ _ => false

/-- Prefix operators yield values without an identity. -/
theorem isPlain_unaryFault {kind : Kind} {operand v : Value}
    (h : unaryFault kind operand = .ok v) : v.isPlain := by
  unfold unaryFault at h
  split at h <;> cases h <;> rfl

/-- A sum is plain. -/
theorem isPlain_add {left right v : Value} (h : Value.add left right = .ok v) : v.isPlain := by
  unfold Value.add at h
  split at h <;> cases h <;> rfl

/-- What is made of two numbers is plain if the operation makes it so. -/
theorem isPlain_numbers {left right v : Value} {g : Float × Float → Except RuntimeFault Value}
    (hg : ∀ pair w, g pair = .ok w → w.isPlain) (h : Value.numbers? left right >>= g = .ok v) :
    v.isPlain := by
  cases hpair : Value.numbers? left right with
  | error e => simp [hpair, Bind.bind, Except.bind] at h
  | ok pair =>
    rw [hpair] at h
    exact hg pair v h

/-- The result of arithmetic is plain. -/
theorem isPlain_arithmetic {g : Float → Float → Float} {left right v : Value}
    (h : Value.arithmetic g left right = .ok v) : v.isPlain :=
  isPlain_numbers (fun _ _ hok => by cases hok; rfl) h

/-- The result of a comparison is plain. -/
theorem isPlain_comparison {g : Float → Float → Bool} {left right v : Value}
    (h : Value.comparison g left right = .ok v) : v.isPlain :=
  isPlain_numbers (fun _ _ hok => by cases hok; rfl) h

/-- A quotient is plain. -/
theorem isPlain_divide {left right v : Value} (h : Value.divide left right = .ok v) :
    v.isPlain := by
  apply isPlain_numbers _ h
  rintro ⟨x, y⟩ w hok
  by_cases hzero : (y == 0.0) = true
  · simp [hzero, MonadExcept.throw, throwThe, MonadExceptOf.throw] at hok
  · simp only [hzero] at hok
    cases hok
    rfl

/-- Binary operators yield values without an identity. -/
theorem isPlain_binaryFault {kind : Kind} {left right v : Value}
    (h : binaryFault kind left right = .ok v) : v.isPlain := by
  unfold binaryFault at h
  split at h
  case h_1 => exact isPlain_add h
  case h_4 => exact isPlain_divide h
  case h_11 | h_12 =>
    cases h
    rfl
  case h_13 => cases h
  case h_7 | h_8 | h_9 | h_10 => exact isPlain_comparison h
  all_goals exact isPlain_arithmetic h

end Value

/-- An element selected is one of the items. -/
theorem Selection.mem_of_element {α : Type} {items : List α} {position : Int} {a : α}
    (h : Selection.element items position = .ok a) : a ∈ items := by
  unfold Selection.element at h
  split at h
  next item hitem =>
    cases h
    obtain ⟨j, -, hj⟩ := Option.bind_eq_some_iff.mp hitem
    exact List.mem_of_getElem? hj
  next => cases h

/-- Every element of a slice is one of the items. -/
theorem Selection.mem_of_mem_slice {α : Type} {items found : List α} {start stop step : Int} {a : α}
    (h : Selection.slice items start stop step = .ok found) (ha : a ∈ found) : a ∈ items := by
  unfold Selection.slice at h
  split at h
  · cases h
  · simp only at h
    split at h
    · cases h
      obtain ⟨j, _, hj⟩ := List.mem_filterMap.mp ha
      exact List.mem_of_getElem? (by simpa using hj)
    · cases h

/-! ## Faults -/

/-- Whether a fault comes from a limit of the machine: its depth or its sink. -/
def RuntimeFault.isLimit : RuntimeFault → Bool
  | tooDeep | output _ => true
  | _ => false

/-- An operation that fails, if it does, because of its operands and not of a limit. -/
def FailsByValues {α : Type} : Except RuntimeFault α → Prop
  | .ok _ => True
  | .error fault => fault.isLimit = false

/-- A unary operator fails by its operand only. -/
theorem failsByValues_unaryFault (kind : Kind) (operand : Value) :
    FailsByValues (Value.unaryFault kind operand) := by
  unfold Value.unaryFault
  split <;> trivial

/-- Asking for two numbers fails by the operands only. -/
theorem failsByValues_numbers (left right : Value) {g : Float × Float → Except RuntimeFault Value}
    (hg : ∀ pair, FailsByValues (g pair)) : FailsByValues (Value.numbers? left right >>= g) := by
  unfold Value.numbers?
  split
  · exact hg _
  · rfl

/-- A sum fails by its operands only. -/
theorem failsByValues_add (left right : Value) : FailsByValues (Value.add left right) := by
  unfold Value.add
  split <;> trivial

/-- A quotient fails by its operands only. -/
theorem failsByValues_divide (left right : Value) : FailsByValues (Value.divide left right) := by
  refine failsByValues_numbers left right ?_
  rintro ⟨x, y⟩
  simp only
  split
  · rfl
  · trivial

/-- A binary operator fails by its operands only. -/
theorem failsByValues_binaryFault (kind : Kind) (left right : Value) :
    FailsByValues (Value.binaryFault kind left right) := by
  unfold Value.binaryFault
  split
  case h_1 => exact failsByValues_add left right
  case h_4 => exact failsByValues_divide left right
  case h_11 | h_12 | h_13 => trivial
  all_goals exact failsByValues_numbers left right fun _ => trivial

/-- Selecting an element fails by the index only. -/
theorem failsByValues_element {α : Type} (items : List α) (position : Int) :
    FailsByValues (Selection.element items position) := by
  unfold Selection.element
  split <;> trivial

/-- Slicing fails by the ends and the step only. -/
theorem failsByValues_slice {α : Type} (items : List α) (start stop step : Int) :
    FailsByValues (Selection.slice items start stop step) := by
  unfold Selection.slice
  split
  · rfl
  · simp only
    split <;> trivial

end Offside
