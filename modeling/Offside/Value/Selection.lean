import Offside.RuntimeError
import Offside.Value.Basic

/-!
# Elements and slices

Positions count from zero. They are held in 64 bits with a sign, so that a position beyond that
range is taken for the nearest one in it; no list is long enough for this to matter.
-/

namespace Offside.Selection

/-- The least integer of 64 bits with a sign. -/
def least : Int := -0x8000000000000000

/-- The greatest integer of 64 bits with a sign. -/
def greatest : Int := 0x7fffffffffffffff

/-- The nearest integer that fits into 64 bits with a sign. -/
def clamp (i : Int) : Int := max least (min i greatest)

/-- The position that a value stands for: it has to be a number without a fraction. -/
def position? : Value → Option Int
  | .number x => (Number.toInt? x).map clamp
  | _ => none

/-- A position as an index into `length` elements. -/
def index? (length : Nat) (position : Int) : Option Nat :=
  if 0 ≤ position ∧ position < length then some position.toNat else none

/-- The element at a position. -/
def element {α : Type} (items : List α) (position : Int) : Except RuntimeFault α :=
  match (index? items.length position).bind (items[·]?) with
  | some item => .ok item
  | none => .error .indexOutOfRange

/-- The indices `start`, `start + step`, and so on below `stop`. -/
def indices (start stop step : Nat) : List Nat :=
  List.range' start ((stop - start + step - 1) / step) step

/-- Every `step`-th element from position `start` up to position `stop`. The start has to be the
position of an element, and the stop may also lie just behind the last one. -/
def slice {α : Type} (items : List α) (start stop step : Int) : Except RuntimeFault (List α) :=
  if step ≤ 0 then .error .invalidSliceStep
  else
    let found := items.toArray
    match index? found.size start, index? (found.size + 1) stop with
    | some start, some stop =>
      .ok ((indices start stop step.toNat).filterMap (found[·]?))
    | _, _ => .error .indexOutOfRange

end Offside.Selection
