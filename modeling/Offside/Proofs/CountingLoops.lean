import Offside.Proofs.ExactSums
import Offside.Proofs.Fuel

/-!
# Counting loops

A counting loop is a loop over a list of numbers that is fixed before its first round. As long as
its bounds and its step are integers of magnitude at most `2 ^ 52`, these numbers are exactly the
integers from the start on in steps that lie before the stop. The counter is not the variable of the
loop, so nothing that the body does changes which rounds follow.
-/

namespace Offside

open Number (value?)

/-! ## The integers that a loop visits -/

namespace Counting

/-- An integer lies before a stop in the direction of a step. -/
def Before (step i stop : ℤ) : Prop := if 0 < step then i < stop else stop < i

/-- The number of rounds of a loop from `s` in steps of `t` to `e`. -/
def rounds (s e t : ℤ) : ℕ := ⌈((e - s : ℤ) : ℚ) / t⌉.toNat

/-- The integers that a loop from `s` in steps of `t` to `e` visits, in order. -/
def visits (s e t : ℤ) : List ℤ := (List.range (rounds s e t)).map fun k : ℕ => s + k * t

section Visits

variable {s e t : ℤ}

/-- There is a round for every multiple of the step that does not lead to the stop. -/
theorem lt_rounds_iff (ht : t ≠ 0) (k : ℕ) : k < rounds s e t ↔ Before t (s + k * t) e := by
  rw [rounds, Int.lt_toNat, Int.lt_ceil, Before]
  rcases lt_or_gt_of_ne ht with hneg | hpos
  · rw [if_neg hneg.not_gt, lt_div_iff_of_neg (by exact_mod_cast hneg)]
    norm_cast
    omega
  · rw [if_pos hpos, lt_div_iff₀ (by exact_mod_cast hpos)]
    norm_cast
    omega

/-- Up to the first integer that is not visited, all are small. -/
theorem abs_visit_le (ht : t ≠ 0) (hs : |s| ≤ 2 ^ 52) (he : |e| ≤ 2 ^ 52) (ht' : |t| ≤ 2 ^ 52)
    {k : ℕ} (hk : k ≤ rounds s e t) : |s + k * t| ≤ 2 ^ 53 := by
  have hvisited {k : ℕ} (hk : k < rounds s e t) : |s + k * t| ≤ 2 ^ 52 := by
    have hbefore := (lt_rounds_iff ht k).mp hk
    unfold Before at hbefore
    rw [abs_le] at *
    split at hbefore
    next hpos =>
      have : 0 ≤ k * t := by positivity
      omega
    next hneg =>
      have : k * t ≤ 0 := mul_nonpos_of_nonneg_of_nonpos (by positivity) (by omega)
      omega
  cases k with
  | zero =>
    simp only [Nat.cast_zero, zero_mul, add_zero]
    omega
  | succ k =>
    have hlast := hvisited hk
    have hstep : s + (k + 1 : ℕ) * t = s + k * t + t := by push_cast; ring
    rw [hstep]
    calc |s + k * t + t| ≤ |s + k * t| + |t| := abs_add_le _ _
      _ ≤ 2 ^ 53 := by omega

end Visits

/-! ## The numbers that a loop visits -/

section Numbers

variable {x y z : Float} {s e t : ℤ}

/-- The comparison of numbers that decides about another round is the one of integers. -/
theorem countsOn_iff {i : ℤ} (hx : value? x = some (i : ℚ)) (hy : value? y = some (e : ℚ))
    (hz : value? z = some (t : ℚ)) (ht : t ≠ 0) : Eval.countsOn x y z = true ↔ Before t i e := by
  have hzero : value? 0.0 = some ((0 : ℤ) : ℚ) := by decide +kernel
  have hpos := Number.lt_iff_value_lt hzero hz
  have hneg := Number.lt_iff_value_lt hz hzero
  have hup := Number.lt_iff_value_lt hx hy
  have hdown := Number.lt_iff_value_lt hy hx
  simp only [Int.cast_lt] at hpos hneg hup hdown
  simp only [Eval.countsOn, Bool.or_eq_true, Bool.and_eq_true, decide_eq_true_iff, gt_iff_lt, hpos,
    hneg, hup, hdown, Before]
  split <;> omega

/-- Adding the step again and again is exact. -/
theorem value_iterate_add (hx : value? x = some (s : ℚ)) (hz : value? z = some (t : ℚ)) {n : ℕ}
    (hsmall : ∀ k ≤ n, |s + k * t| ≤ 2 ^ 53) :
    value? ((· + z)^[n] x) = some ((s + n * t : ℤ) : ℚ) := by
  induction n with
  | zero => simpa using hx
  | succ n ih =>
    rw [Function.iterate_succ_apply']
    refine Number.value_add (ih fun k hk => hsmall k (by omega)) hz ?_ (hsmall (n + 1) le_rfl)
    push_cast
    ring

end Numbers

end Counting

open Counting

/-- Counting is going through a list. -/
theorem Eval.forNumbers_eq_untilReturn {stop step : Float} (action : Float → Eval Flow) {n : ℕ}
    {i : Float} (hon : ∀ k < n, countsOn ((· + step)^[k] i) stop step = true)
    (hoff : countsOn ((· + step)^[n] i) stop step = false) {fuel : ℕ} (hfuel : n < fuel) :
    forNumbers stop step action i fuel = untilReturn action (List.iterate (· + step) i n) := by
  induction n generalizing i fuel with
  | zero =>
    obtain ⟨fuel, rfl⟩ : ∃ k, fuel = k + 1 := ⟨fuel - 1, by omega⟩
    rw [forNumbers, if_neg (by simpa using hoff)]
    rfl
  | succ n ih =>
    obtain ⟨fuel, rfl⟩ : ∃ k, fuel = k + 1 := ⟨fuel - 1, by omega⟩
    have hrest : forNumbers stop step action (i + step) fuel =
        untilReturn action (List.iterate (· + step) (i + step) n) :=
      ih (fun k hk => hon (k + 1) (by omega)) hoff (by omega)
    have hfirst : countsOn i stop step = true := hon 0 (by omega)
    rw [forNumbers, if_pos hfirst, List.iterate, untilReturn, hrest]

/-! ## Bounds -/

/-- Evaluates the bounds and the step of a counting loop. -/
def Parts.bounds (p : Parts) (f : Nat) (name : Token) (start : Option Expr) (stop : Expr)
    (step : Option Expr) : Eval (Float × Float × Float) := do
  let x ← p.boundOr f name 0.0 start
  let y ← p.bound f name stop
  let z ← p.boundOr f name 1.0 step
  return (x, y, z)

/-- One round of a loop, over the evaluation of parts. -/
def Parts.round (p : Parts) (f : Nat) (name : Token) (body : List Stmt) (v : Value) :
    Eval Flow := do
  Eval.assign f name v
  p.execBlock f body

variable {fuel fuel' f : ℕ} {name : Token} {start step : Option Expr} {stop : Expr}
  {body : List Stmt} {m m' m₀ : Machine} {x y z : Float} {s e t : ℤ}

/-- A counting loop evaluates its bounds once and counts from there. -/
theorem Stmt.exec_forRange
    (hbounds : (Parts.withFuel fuel).bounds f name start stop step m = .ok (x, y, z) m₀)
    (body : List Stmt) :
    Stmt.exec (fuel + 1) f (.forRange name start stop step body) m =
      (if z == 0.0 then Eval.fail .zeroRangeStep name
        else Eval.forNumbers y z (fun i => (Parts.withFuel fuel).round f name body (.number i)) x
          fuel) m₀ := by
  have hsplit : Stmt.exec (fuel + 1) f (.forRange name start stop step body) =
      (Parts.withFuel fuel).bounds f name start stop step >>= fun (x, y, z) =>
        if z == 0.0 then Eval.fail .zeroRangeStep name
        else Eval.forNumbers y z (fun i => (Parts.withFuel fuel).round f name body (.number i)) x
          fuel := by
    simp only [Parts.bounds, bind_assoc, pure_bind, Stmt.exec, Stmt.execWith]
    rfl
  rw [hsplit, Eval.bind_of_ok hbounds]

/-! ## More fuel -/

/-- A run next to one that ends normally ends normally, in the same state. -/
theorem Simulation.ok_of_related {α α' : Type} {R : α → α' → Prop} {a : α}
    {r : EStateM.Result Halt Machine α'} (h : Simulation.equality.Related R (.ok a m) r) :
    ∃ a', r = .ok a' m ∧ R a a' := by
  cases h with
  | ok hm ha =>
    cases hm
    exact ⟨_, rfl, ha⟩

/-- Bounds that were found are found with more fuel as well. -/
theorem Parts.bounds_of_le (hle : fuel ≤ fuel')
    (h : (Parts.withFuel fuel).bounds f name start stop step m = .ok (x, y, z) m₀) :
    (Parts.withFuel fuel').bounds f name start stop step m = .ok (x, y, z) m₀ := by
  have hparts := Simulation.equality.matchesParts hle
  have hmatches : Simulation.equality.Matches (· = ·)
      ((Parts.withFuel fuel).bounds f name start stop step)
      ((Parts.withFuel fuel').bounds f (id name) (start.map (Expr.move id)) (stop.move id)
        (step.map (Expr.move id))) := by
    refine (Simulation.matches_boundOr hparts rfl rfl name 0.0 start).bind ?_
    rintro x _ rfl
    refine (Simulation.matches_bound hparts rfl rfl name stop).bind ?_
    rintro y _ rfl
    refine (Simulation.matches_boundOr hparts rfl rfl name 1.0 step).bind ?_
    rintro z _ rfl
    exact Simulation.Matches.pure rfl
  have hrelated := hmatches m m rfl
  rw [h] at hrelated
  obtain ⟨_, hrun, rfl⟩ := Simulation.ok_of_related hrelated
  have hmove : Expr.move id = id := funext Expr.move_id
  simpa only [hmove, Option.map_id, id] using hrun

/-- A block that came to its end does so with more fuel as well. -/
theorem Parts.execBlock_of_le (hle : fuel ≤ fuel')
    (h : (Parts.withFuel fuel).execBlock f body m = .ok .next m') :
    (Parts.withFuel fuel').execBlock f body m = .ok .next m' := by
  have hframe : Simulation.equality.frame f f := rfl
  have hrelated := Simulation.matches_execBlock (Simulation.equality.matchesParts hle) hframe
    (g := id) rfl body m m rfl
  rw [h, Stmt.moveEach_id] at hrelated
  obtain ⟨_, hrun, hflow⟩ := Simulation.ok_of_related hrelated
  cases hflow
  exact hrun

/-! ## Rounds -/

/-- One round of a loop: its variable is assigned a value, and the body comes to its end. -/
def Round (f : Nat) (name : Token) (body : List Stmt) (v : Value) (m m' : Machine) : Prop :=
  ∃ fuel, (Parts.withFuel fuel).execBlock f body (m.assign f name.lexeme v) = .ok .next m'

/-- Rounds of a loop, one for each value. -/
inductive Rounds (f : Nat) (name : Token) (body : List Stmt) :
    List Value → Machine → Machine → Prop
  | nil (m : Machine) : Rounds f name body [] m m
  | cons {v : Value} {vs : List Value} {m m' m'' : Machine} : Round f name body v m m' →
    Rounds f name body vs m' m'' → Rounds f name body (v :: vs) m m''

/-- Every round that is reached comes to its end. -/
def RoundsComplete (f : Nat) (name : Token) (body : List Stmt) (vs : List Value) (m : Machine) :
    Prop :=
  ∀ done v rest m', vs = done ++ v :: rest → Rounds f name body done m m' →
    ∃ m'', Round f name body v m' m''

/-- With enough fuel, a loop goes through its rounds. -/
theorem Rounds.untilReturn {vs : List Value} (h : Rounds f name body vs m m') :
    ∃ fuel, ∀ fuel' ≥ fuel,
      Eval.untilReturn ((Parts.withFuel fuel').round f name body) vs m = .ok .next m' := by
  induction h with
  | nil m => exact ⟨0, fun _ _ => rfl⟩
  | @cons v vs m m₁ m' hround _ ih =>
    obtain ⟨n, hn⟩ := hround
    obtain ⟨k, hk⟩ := ih
    refine ⟨max n k, fun fuel' hle => ?_⟩
    have hblock := Parts.execBlock_of_le (le_trans (le_max_left n k) hle) hn
    have hone : (Parts.withFuel fuel').round f name body v m = .ok .next m₁ := hblock
    rw [Eval.untilReturn, Eval.bind_of_ok hone]
    exact hk fuel' (le_trans (le_max_right n k) hle)

/-- If every round that is reached comes to its end, so do all rounds. -/
theorem RoundsComplete.exists_rounds {vs : List Value} (h : RoundsComplete f name body vs m) :
    ∃ m', Rounds f name body vs m m' := by
  induction vs generalizing m with
  | nil => exact ⟨m, .nil m⟩
  | cons v vs ih =>
    obtain ⟨m₁, hfirst⟩ := h [] v vs m rfl (.nil m)
    have hlater : RoundsComplete f name body vs m₁ := fun done w rest m' hvs hdone =>
      h (v :: done) w rest m' (by rw [hvs, List.cons_append]) (.cons hfirst hdone)
    obtain ⟨m', hrest⟩ := ih hlater
    exact ⟨m', .cons hfirst hrest⟩

/-- The numbers that a loop visits stand for the integers that it visits. -/
theorem value_visited (hx : value? x = some (s : ℚ)) (hz : value? z = some (t : ℚ)) (ht : t ≠ 0)
    (hs : |s| ≤ 2 ^ 52) (he : |e| ≤ 2 ^ 52) (ht' : |t| ≤ 2 ^ 52) :
    (List.iterate (· + z) x (rounds s e t)).map value? =
      (visits s e t).map fun i : ℤ => some (i : ℚ) := by
  apply List.ext_getElem
  · simp [visits]
  · intro k hk _
    rw [List.length_map, List.length_iterate] at hk
    simp only [List.getElem_map, List.getElem_iterate, visits, List.getElem_range]
    exact value_iterate_add hx hz fun j hj => abs_visit_le ht hs he ht' (by omega)

/-- Counting with small integers is going through the numbers that are visited. -/
theorem forNumbers_eq (action : Float → Eval Flow) (hx : value? x = some (s : ℚ))
    (hy : value? y = some (e : ℚ)) (hz : value? z = some (t : ℚ)) (ht : t ≠ 0)
    (hs : |s| ≤ 2 ^ 52) (he : |e| ≤ 2 ^ 52) (ht' : |t| ≤ 2 ^ 52) (hfuel : rounds s e t < fuel) :
    Eval.forNumbers y z action x fuel =
      Eval.untilReturn action (List.iterate (· + z) x (rounds s e t)) := by
  have hcounts {k : ℕ} (hk : k ≤ rounds s e t) :
      Eval.countsOn ((· + z)^[k] x) y z = true ↔ k < rounds s e t := by
    have hvalue := value_iterate_add hx hz fun j hj => abs_visit_le ht hs he ht' (hj.trans hk)
    rw [countsOn_iff hvalue hy hz ht, lt_rounds_iff ht]
  refine Eval.forNumbers_eq_untilReturn action (fun k hk => (hcounts hk.le).mpr hk) ?_ hfuel
  exact Bool.eq_false_iff.mpr fun hon => lt_irrefl _ ((hcounts le_rfl).mp hon)

/-- Going through computed elements is going through what they are computed from. -/
theorem Eval.untilReturn_map {α β : Type} (g : α → β) (action : β → Eval Flow) (as : List α) :
    untilReturn action (as.map g) = untilReturn (fun a => action (g a)) as := by
  induction as with
  | nil => rfl
  | cons a as ih => simp only [List.map_cons, untilReturn, ih]

/-- A counting loop whose start, stop and step evaluate to the integers `s`, `e` and `t` of
magnitude at most `2 ^ 52`; a start that is left out is zero, and a step that is left out is one. If
the step is zero, the loop fails before its body runs. Otherwise the loop goes through the integers
`s + k * t` before `e` in this order, each of which is assigned to the variable before the body
runs, and if every round that is reached comes to its end, so does the loop. -/
theorem countingLoop_visits
    (hbounds : (Parts.withFuel fuel).bounds f name start stop step m = .ok (x, y, z) m₀)
    (hx : value? x = some (s : ℚ)) (hy : value? y = some (e : ℚ)) (hz : value? z = some (t : ℚ))
    (hs : |s| ≤ 2 ^ 52) (he : |e| ≤ 2 ^ 52) (ht : |t| ≤ 2 ^ 52) (body : List Stmt) :
    (t = 0 → ∀ fuel' > fuel, FailsWith name "Range step cannot be zero." m₀
      (Stmt.exec fuel' f (.forRange name start stop step body) m)) ∧
    (t ≠ 0 → ∃ xs : List Float,
      xs.map value? = (visits s e t).map (fun i : ℤ => some (i : ℚ)) ∧
      (∀ k : ℕ, k < xs.length ↔ Before t (s + k * t) e) ∧
      (∀ fuel', fuel ≤ fuel' → xs.length < fuel' →
        Stmt.exec (fuel' + 1) f (.forRange name start stop step body) m =
          Eval.untilReturn ((Parts.withFuel fuel').round f name body) (xs.map .number) m₀) ∧
      (RoundsComplete f name body (xs.map .number) m₀ →
        ∃ m', Rounds f name body (xs.map .number) m₀ m' ∧ ∃ enough, ∀ fuel' ≥ enough,
          Stmt.exec fuel' f (.forRange name start stop step body) m = .ok .next m')) := by
  have hzero : value? 0.0 = some ((0 : ℤ) : ℚ) := by decide +kernel
  have hstep : z == 0.0 ↔ t = 0 := by
    rw [Number.beq_iff_value_eq hz hzero, Int.cast_inj]
  refine ⟨fun ht0 fuel' hlt => ?_, fun ht0 => ?_⟩
  · obtain ⟨k, rfl⟩ : ∃ k, fuel' = k + 1 := ⟨fuel' - 1, by omega⟩
    rw [Stmt.exec_forRange (Parts.bounds_of_le (by omega) hbounds), if_pos (hstep.mpr ht0)]
    exact ⟨_, rfl, rfl, rfl⟩
  · have hunrolled (fuel' : ℕ) (hle : fuel ≤ fuel') (hlt : rounds s e t < fuel') :
        Stmt.exec (fuel' + 1) f (.forRange name start stop step body) m =
          Eval.untilReturn ((Parts.withFuel fuel').round f name body)
            ((List.iterate (· + z) x (rounds s e t)).map .number) m₀ := by
      rw [Stmt.exec_forRange (Parts.bounds_of_le hle hbounds), if_neg (mt hstep.mp ht0),
        forNumbers_eq _ hx hy hz ht0 hs he ht hlt, Eval.untilReturn_map]
    refine ⟨List.iterate (· + z) x (rounds s e t), value_visited hx hz ht0 hs he ht, fun k => ?_,
      fun fuel' hle hlt => hunrolled fuel' hle (by simpa using hlt), fun hcomplete => ?_⟩
    · rw [List.length_iterate, lt_rounds_iff ht0]
    · obtain ⟨m', hrounds⟩ := hcomplete.exists_rounds
      obtain ⟨n, hn⟩ := hrounds.untilReturn
      refine ⟨m', hrounds, max n (max fuel (rounds s e t + 1)) + 1, fun fuel' hle => ?_⟩
      obtain ⟨k, rfl⟩ : ∃ k, fuel' = k + 1 := ⟨fuel' - 1, by omega⟩
      rw [hunrolled k (by omega) (by omega)]
      exact hn k (by omega)

/-- Counting down from five past minus two, with a body that assigns to the variable of the loop. -/
theorem countingLoop_visits_downward :
    let name : Token := ⟨.identifier, "i", 1, ⟨0, 1⟩⟩
    let body : List Stmt := [.assign name (.literal (.number 7.0))]
    let literal (x : Float) : Expr := .literal (.number x)
    let m : Machine := { depthLimit := 9 }
    visits 5 (-2) (-3) = [5, 2, -1] ∧
      ∃ xs : List Float, xs.map value? = [some 5, some 2, some (-1)] ∧
        ∃ m', Rounds 0 name body (xs.map .number) m m' ∧ ∃ enough, ∀ fuel' ≥ enough,
          Stmt.exec fuel' 0 (.forRange name (some (literal 5.0)) (literal (-2.0))
            (some (literal (-3.0))) body) m = .ok .next m' := by
  intro name body literal m
  have hbounds : (Parts.withFuel 1).bounds 0 name (some (literal 5.0)) (literal (-2.0))
      (some (literal (-3.0))) m = .ok (5.0, -2.0, -3.0) m := rfl
  have hvisits : visits 5 (-2) (-3) = [5, 2, -1] := by decide +kernel
  obtain ⟨xs, hxs, -, -, hends⟩ := (countingLoop_visits (s := 5) (e := -2) (t := -3) hbounds
    (by decide +kernel) (by decide +kernel) (by decide +kernel) (by decide) (by decide) (by decide)
    body).2 (by decide)
  refine ⟨hvisits, xs, by rw [hxs, hvisits]; rfl, hends fun _ v _ m' _ _ => ?_⟩
  exact ⟨_, 2, rfl⟩

end Offside
