import Offside.Tree.SyntaxError

/-!
# Reading tokens

Readers consume a list of tokens from the front. A reader that fails says what it expected, and
leaves the tokens that it has not consumed, so that parsing can go on behind an error.
-/

namespace Offside

/-- A reader over the remaining tokens. -/
abbrev Reader := EStateM SyntaxError (List Token)

namespace Reader

/-- Fails at the next token. -/
def fail {α : Type} (what : Expectation) : Reader α := fun ts =>
  .error ⟨.expected what, ts.head?⟩ ts

/-- Whether the next token has the given kind. -/
def nextIs (kind : Kind) : Reader Bool := fun ts =>
  .ok (ts.head?.any (·.kind == kind)) ts

/-- Consumes the next token if it satisfies `p`. -/
def acceptIf (p : Kind → Bool) : Reader (Option Token)
  | t :: ts => if p t.kind then .ok (some t) ts else .ok none (t :: ts)
  | [] => .ok none []

/-- Consumes the next token if it has the given kind. -/
def accept (kind : Kind) : Reader (Option Token) := acceptIf (· == kind)

/-- Consumes a token of the given kind, or fails. -/
def expect (kind : Kind) (what : Expectation) : Reader Token
  | t :: ts => if t.kind == kind then .ok t ts else fail what (t :: ts)
  | [] => fail what []

/-- Consumes all tokens at the front that satisfy `p`. -/
def takeWhile (p : Kind → Bool) : Reader (List Token) := fun ts =>
  .ok (ts.takeWhile (p ·.kind)) (ts.dropWhile (p ·.kind))

/-- Skips ends of lines. -/
def skipNewlines : Reader Unit := fun ts => .ok () (ts.dropWhile (·.kind == .newline))

end Reader

/-- Repeats an action until it yields nothing, at most `limit` times, and collects what it yields
behind what was collected before in reverse order. -/
def collect {ε σ α : Type} (action : EStateM ε σ (Option α)) (done : List α) :
    Nat → EStateM ε σ (List α)
  | 0 => pure done.reverse
  | limit + 1 => do
    match ← action with
    | none => pure done.reverse
    | some a => collect action (a :: done) limit

/-- What was collected before stands in front of what is collected now. -/
theorem collect_eq {ε σ α : Type} (action : EStateM ε σ (Option α)) (done : List α) (limit : Nat)
    (s : σ) :
    collect action done limit s =
      match collect action [] limit s with
      | .ok found s => .ok (done.reverse ++ found) s
      | .error e s => .error e s := by
  induction limit generalizing done s with
  | zero => simp [collect, pure, EStateM.pure]
  | succ limit ih =>
    simp only [collect, bind, EStateM.bind]
    cases action s with
    | error e s => rfl
    | ok next s =>
      cases next with
      | none => simp [pure, EStateM.pure]
      | some a =>
        simp only []
        rw [ih (a :: done), ih [a]]
        cases collect action [] limit s <;> simp

end Offside
