import Offside.Proofs.NumberValues
import Offside.Proofs.Transitions

/-!
# Elements and slices by position

Positions are integers of any size. An element is there exactly if its position is one of the list,
and a slice takes the elements at its start, one step further, two steps further and so on below its
stop. Holding positions in 64 bits changes none of this as long as a list has less than `2 ^ 62`
elements.
-/

namespace Offside

namespace Selection

variable {α β : Type} {items found : List α} {start stop step : Int}

/-! ## Elements -/

/-- Clamping changes no index into a list that fits. -/
theorem index?_clamp {n : Nat} (hn : n ≤ 2 ^ 62) (i : Int) : index? n (clamp i) = index? n i := by
  unfold index? clamp least greatest
  split
  next hin =>
    rw [if_pos (by omega)]
    congr 1
    omega
  next hout => rw [if_neg (by omega)]

/-- Selecting an element commutes with mapping. -/
theorem element_map (g : α → β) (items : List α) (i : Int) :
    element (items.map g) i = (element items i).map g := by
  unfold element
  rw [List.length_map]
  cases index? items.length i with
  | none => rfl
  | some j =>
    simp only [Option.bind_some, List.getElem?_map]
    cases items[j]? <;> rfl

/-- An element is found exactly at the positions of the list, whatever the size of a position. -/
theorem element_clamp (hlength : items.length < 2 ^ 62) (i : Int) :
    element items (clamp i) =
      if h : 0 ≤ i ∧ i < items.length then .ok (items.get ⟨i.toNat, by omega⟩)
      else .error .indexOutOfRange := by
  unfold element
  rw [index?_clamp hlength.le, index?]
  by_cases h : 0 ≤ i ∧ i < items.length
  · have hindex : i.toNat < items.length := by omega
    rw [if_pos h, dif_pos h, Option.bind_some, List.getElem?_eq_getElem hindex]
    rfl
  · rw [if_neg h, dif_neg h]
    rfl

/-! ## Slices -/

/-- The elements at `start`, `start + step`, `start + 2 * step` and so on below `stop`, in this
order; all of these are positions of the list. -/
structure Selects (items : List α) (start stop step : Int) (found : List α) : Prop where
  counts (k : Nat) : k < found.length ↔ start + k * step < stop
  picks (k : Nat) : k < found.length →
    ∃ p : Nat, p = start + k * step ∧ p < items.length ∧ found[k]? = items[p]?

/-- A slice may start at an element and stop at an element or just behind the last one. -/
def Allowed (length : Nat) (start stop : Int) : Prop :=
  (0 ≤ start ∧ start < length) ∧ 0 ≤ stop ∧ stop ≤ length

/-- Nothing is selected from an empty range. -/
theorem Selects.eq_nil (h : Selects items start stop step found) (hle : stop ≤ start) :
    found = [] := by
  have hnone : ¬0 < found.length := by
    rw [h.counts 0]
    omega
  exact List.eq_nil_of_length_eq_zero (by omega)

/-- In unit steps as many elements are selected as the range is long. -/
theorem Selects.length_of_unit (h : Selects items start stop 1 found) :
    found.length = (stop - start).toNat := by
  have hlast := h.counts (stop - start).toNat
  have hbefore := h.counts ((stop - start).toNat - 1)
  omega

/-- The number of steps that stay below a stop. -/
theorem lt_count_iff {start stop step k : Nat} (hstep : 0 < step) :
    k < (stop - start + step - 1) / step ↔ start + k * step < stop := by
  rw [Nat.lt_iff_add_one_le, Nat.le_div_iff_mul_le hstep, Nat.add_mul, Nat.one_mul]
  generalize k * step = distance
  omega

/-- Every index selected is below the stop. -/
theorem mem_indices_lt {start stop step p : Nat} (hstep : 0 < step)
    (hp : p ∈ indices start stop step) : p < stop := by
  obtain ⟨k, hk, rfl⟩ := List.mem_range'.mp hp
  have hbelow := (lt_count_iff hstep).mp hk
  rwa [Nat.mul_comm] at hbelow

/-- Looking up positions of a list loses none of them. -/
theorem map_some_filterMap {ps : List Nat} (h : ∀ p ∈ ps, p < items.length) :
    (ps.filterMap (items[·]?)).map some = ps.map (items[·]?) := by
  induction ps with
  | nil => rfl
  | cons p ps ih =>
    have hp := List.getElem?_eq_getElem (h p List.mem_cons_self)
    rw [List.filterMap_cons_some hp, List.map_cons, List.map_cons, hp,
      ih fun q hq => h q (List.mem_cons_of_mem p hq)]

/-- The elements at the indices of a slice. -/
theorem selects_indices (start : Nat) {stop step : Nat} (hstep : 0 < step)
    (hstop : stop ≤ items.length) :
    Selects items start stop step ((indices start stop step).filterMap (items[·]?)) := by
  have hinside : ∀ p ∈ indices start stop step, p < items.length :=
    fun p hp => Nat.lt_of_lt_of_le (mem_indices_lt hstep hp) hstop
  have hfound := map_some_filterMap hinside
  generalize (indices start stop step).filterMap (items[·]?) = found at hfound
  have hlength : found.length = (stop - start + step - 1) / step := by
    simpa [indices] using congrArg List.length hfound
  have hcounts (k : Nat) : k < found.length ↔ start + k * step < stop := by
    rw [hlength, lt_count_iff hstep]
  refine ⟨fun k => by rw [hcounts k]; exact_mod_cast Iff.rfl, fun k hk => ?_⟩
  refine ⟨start + k * step, by push_cast; rfl, Nat.lt_of_lt_of_le ((hcounts k).mp hk) hstop, ?_⟩
  have hget := congrArg (·[k]?) hfound
  rw [hlength] at hk
  simp only [List.getElem?_map, indices, List.getElem?_range' hk, Option.map_some] at hget
  obtain ⟨a, ha, hsome⟩ := Option.map_eq_some_iff.mp hget
  rw [ha, hsome, Nat.mul_comm]

/-- Slicing commutes with mapping. -/
theorem slice_map (g : α → β) (items : List α) (start stop step : Int) :
    slice (items.map g) start stop step = (slice items start stop step).map (List.map g) := by
  unfold slice
  simp only [List.size_toArray, List.length_map, List.getElem?_toArray, List.getElem?_map]
  split
  · rfl
  split
  · simp only [Except.map, List.map_filterMap]
  · rfl

/-- Steps that lead to the stop at once select the same. -/
theorem Selects.of_far {step' : Int} (h : Selects items start stop step found)
    (hfar : stop ≤ start + step) (hfar' : stop ≤ start + step') (hpos : 0 ≤ step)
    (hpos' : 0 ≤ step') : Selects items start stop step' found := by
  have hzero {s : Int} (hs : stop ≤ start + s) (hs' : 0 ≤ s) {k : Nat}
      (hk : start + k * s < stop) : k = 0 := by
    by_contra hne
    have hle : s ≤ k * s := le_mul_of_one_le_left hs' (by omega)
    omega
  refine ⟨fun k => (h.counts k).trans ⟨fun hk => ?_, fun hk => ?_⟩, fun k hk => ?_⟩
  · obtain rfl := hzero hfar hpos hk
    simpa using hk
  · obtain rfl := hzero hfar' hpos' hk
    simpa using hk
  · obtain rfl := hzero hfar hpos ((h.counts k).mp hk)
    simpa using h.picks 0 hk

/-! ## Slices by positions of any size -/

/-- Clamping makes no step positive that is not, and the other way round. -/
theorem clamp_nonpos_iff (i : Int) : clamp i ≤ 0 ↔ i ≤ 0 := by
  unfold clamp least greatest
  omega

/-- A step that is not positive is refused. -/
theorem slice_of_nonpos (hstep : step ≤ 0) :
    slice items start stop (clamp step) = .error .invalidSliceStep := by
  rw [slice, if_pos ((clamp_nonpos_iff step).mpr hstep)]

/-- Clamped ends are checked in order, the start before the stop. -/
theorem slice_clamp (hlength : items.length < 2 ^ 62) (hstep : 0 < step) :
    slice items (clamp start) (clamp stop) (clamp step) =
      match index? items.length start, index? (items.length + 1) stop with
      | some i, some j => .ok ((indices i j (clamp step).toNat).filterMap (items[·]?))
      | _, _ => .error .indexOutOfRange := by
  have hlength' : items.length + 1 ≤ 2 ^ 62 := hlength
  rw [slice, if_neg (by rw [clamp_nonpos_iff]; omega)]
  simp only [List.size_toArray, index?_clamp hlength.le, index?_clamp hlength']
  cases index? items.length start with
  | none => rfl
  | some i =>
    cases index? (items.length + 1) stop with
    | none => rfl
    | some j => simp only [List.getElem?_toArray]

/-- Ends that are not allowed are refused. -/
theorem slice_of_not_allowed (hlength : items.length < 2 ^ 62) (hstep : 0 < step)
    (h : ¬Allowed items.length start stop) :
    slice items (clamp start) (clamp stop) (clamp step) = .error .indexOutOfRange := by
  rw [slice_clamp hlength hstep]
  split
  next i j hi hj =>
    unfold index? at hi hj
    split at hi <;> cases hi
    split at hj <;> cases hj
    exact absurd ⟨by assumption, by omega⟩ h
  next => rfl

/-- Allowed ends select exactly their range. -/
theorem slice_of_allowed (hlength : items.length < 2 ^ 62) (hstep : 0 < step)
    (h : Allowed items.length start stop) :
    ∃ found, slice items (clamp start) (clamp stop) (clamp step) = .ok found ∧
      Selects items start stop step found := by
  obtain ⟨⟨hstart, hstart'⟩, hstop, hstop'⟩ := h
  lift start to Nat using hstart
  lift stop to Nat using hstop
  have hi : index? items.length start = some start := by
    simp [index?, hstart']
  have hj : index? (items.length + 1) stop = some stop := by
    simp only [index?, Nat.cast_nonneg, true_and, Nat.cast_lt, Int.toNat_natCast]
    rw [if_pos (by omega)]
  have hclamp : 0 < clamp step := by
    have := clamp_nonpos_iff step
    omega
  have hsteps : 0 < (clamp step).toNat := by omega
  have hinside : stop ≤ items.length := by omega
  have hfound := selects_indices start hsteps hinside
  rw [Int.toNat_of_nonneg hclamp.le] at hfound
  rw [slice_clamp hlength hstep, hi, hj]
  refine ⟨_, rfl, ?_⟩
  by_cases hfits : step ≤ greatest
  · have hkept : clamp step = step := by
      unfold clamp least
      omega
    rwa [hkept] at hfound ⊢
  · have hcut : clamp step = greatest := by
      unfold clamp least greatest at *
      omega
    unfold greatest at hfits hcut
    exact hfound.of_far (by omega) (by omega) hclamp.le hstep.le

end Selection

/-! ## Evaluated selections -/

/-- Evaluating an expression yields an integer. -/
def Expr.YieldsInt (fuel f : Nat) (e : Expr) (i : ℤ) (m m' : Machine) : Prop :=
  ∃ x, Expr.eval fuel f e m = .ok (.number x) m' ∧ Number.value? x = some (i : ℚ)

/-- What a slice with these elements is made of: a new list, or a string. -/
inductive Value.Gathers (m : Machine) : Value → List Value → Value → Machine → Prop
  | list (i : Nat) (items found : List Value) :
    Gathers m (.list i items) found (.list m.nextIdentity found) m.issue
  | string (contents : String) {text : String} {found : List Value} :
    (Value.string text).elements? = some found →
      Gathers m (.string contents) found (.string text) m

/-- How a slice of a list or string has to end. -/
structure SliceEnds (name : Token) (target : Value) (items : List Value) (start stop step : ℤ)
    (m : Machine) (r : EStateM.Result Halt Machine Value) : Prop where
  badStep : step ≤ 0 → FailsWith name "Slice step must be positive." m r
  outOfRange : 0 < step → ¬Selection.Allowed items.length start stop →
    FailsWith name ("Index out of range for '" ++ name.lexeme ++ "'.") m r
  found : 0 < step → Selection.Allowed items.length start stop →
    ∃ found v m', r = .ok v m' ∧ target.Gathers m found v m' ∧
      Selection.Selects items start stop step found ∧
      (step = 1 → start ≤ stop → found.length = stop - start) ∧ (stop ≤ start → found = [])

variable {fuel f : Nat} {name : Token} {target : Value} {items : List Value} {m m' : Machine}

/-- An expression that yields an integer gives the clamped position. -/
theorem Expr.YieldsInt.position {e : Expr} {i : ℤ} (h : e.YieldsInt fuel f i m m') (name : Token) :
    (Parts.withFuel fuel).position f name e m = .ok (Selection.clamp i) m' := by
  obtain ⟨x, heval, hvalue⟩ := h
  rw [Parts.position, Eval.bind_of_ok heval, Selection.position?,
    Number.toInt?_eq_some_iff.mpr hvalue]
  rfl

/-- An element of a value is an element of what it holds. -/
theorem Value.element_apply (hitems : target.elements? = some items) (name : Token) (i : ℤ)
    (m : Machine) :
    Value.element name target i m =
      match Selection.element items i with
      | .ok v => .ok v m
      | .error fault => .error (.failed ⟨fault, name⟩) m := by
  unfold Value.elements? at hitems
  split at hitems <;> cases hitems
  · rw [Value.element]
    cases Selection.element _ i <;> rfl
  · rw [Value.element, Selection.element_map]
    cases Selection.element _ i <;> rfl

/-- A slice of a value is a slice of what it holds, or its error. -/
theorem Value.slice_apply (hitems : target.elements? = some items) (name : Token)
    (start stop step : ℤ) (m : Machine) :
    match Selection.slice items start stop step with
    | .ok found => ∃ v m', Value.slice name target start stop step m = .ok v m' ∧
        target.Gathers m found v m'
    | .error fault =>
      Value.slice name target start stop step m = .error (.failed ⟨fault, name⟩) m := by
  unfold Value.elements? at hitems
  split at hitems <;> cases hitems
  next i =>
    rw [Value.slice]
    cases Selection.slice items start stop step with
    | error fault => rfl
    | ok found => exact ⟨_, _, rfl, .list i items found⟩
  next contents =>
    rw [Value.slice, Selection.slice_map]
    cases Selection.slice contents.toList start stop step with
    | error fault => rfl
    | ok found => exact ⟨_, _, rfl, .string contents (by simp [Value.elements?])⟩

/-- Slicing by evaluated positions ends as it has to. -/
theorem Value.sliceEnds (hitems : target.elements? = some items) (hlength : items.length < 2 ^ 62)
    (name : Token) (start stop step : ℤ) (m : Machine) :
    SliceEnds name target items start stop step m
      (Value.slice name target (Selection.clamp start) (Selection.clamp stop)
        (Selection.clamp step) m) := by
  have happly := Value.slice_apply hitems name (Selection.clamp start) (Selection.clamp stop)
    (Selection.clamp step) m
  refine ⟨fun hstep => ?_, fun hstep hnot => ?_, fun hstep hallowed => ?_⟩
  · rw [Selection.slice_of_nonpos hstep] at happly
    exact ⟨_, happly, rfl, rfl⟩
  · rw [Selection.slice_of_not_allowed hlength hstep hnot] at happly
    exact ⟨_, happly, rfl, rfl⟩
  · obtain ⟨found, hslice, hselects⟩ := Selection.slice_of_allowed hlength hstep hallowed
    rw [hslice] at happly
    obtain ⟨v, m', hrun, hgathers⟩ := happly
    refine ⟨found, v, m', hrun, hgathers, hselects, fun hunit hle => ?_, hselects.eq_nil⟩
    subst hunit
    rw [hselects.length_of_unit, Int.toNat_of_nonneg (by omega)]

/-- Elements and slices of a list or string, by positions and a step that evaluate to integers of
any size. An element is found exactly at the positions of the list. A slice fails if its step is not
positive, or else if its bounds are not allowed, and otherwise holds exactly the elements that are
selected. -/
theorem selections_exact (htarget : m.scopes.lookup f name.lexeme = some target)
    (hitems : target.elements? = some items) (hlength : items.length < 2 ^ 62) (fuel : Nat) :
    (∀ (position : Expr) (i : ℤ) (m₁ : Machine), position.YieldsInt fuel f i m m₁ →
      (∀ h : 0 ≤ i ∧ i < items.length, Expr.eval (fuel + 1) f (.element name position) m =
        .ok (items.get ⟨i.toNat, by omega⟩) m₁) ∧
      (¬(0 ≤ i ∧ i < items.length) →
        FailsWith name ("Index out of range for '" ++ name.lexeme ++ "'.") m₁
          (Expr.eval (fuel + 1) f (.element name position) m))) ∧
    (∀ (start stop : Expr) (i j : ℤ) (m₁ m₂ : Machine), start.YieldsInt fuel f i m m₁ →
      stop.YieldsInt fuel f j m₁ m₂ →
        SliceEnds name target items i j 1 m₂ (Expr.eval (fuel + 1) f (.slice name start stop) m)) ∧
    ∀ (start stop step : Expr) (i j k : ℤ) (m₁ m₂ m₃ : Machine), start.YieldsInt fuel f i m m₁ →
      stop.YieldsInt fuel f j m₁ m₂ → step.YieldsInt fuel f k m₂ m₃ →
        SliceEnds name target items i j k m₃
          (Expr.eval (fuel + 1) f (.stride name start stop step) m) := by
  have hlookup : Eval.lookup f name m = .ok target m := by
    rw [Eval.lookup_apply, htarget]
  refine ⟨fun position i m₁ hposition => ?_, fun start stop i j m₁ m₂ hstart hstop => ?_,
    fun start stop step i j k m₁ m₂ m₃ hstart hstop hstep => ?_⟩
  · have heval : Expr.eval (fuel + 1) f (.element name position) m =
        Value.element name target (Selection.clamp i) m₁ := by
      simp only [Expr.eval, Expr.evalWith]
      rw [Eval.bind_of_ok hlookup,
        Eval.bind_of_ok (hposition.position name)]
    rw [heval, Value.element_apply hitems, Selection.element_clamp hlength]
    refine ⟨fun h => ?_, fun h => ?_⟩
    · rw [dif_pos h]
    · rw [dif_neg h]
      exact ⟨_, rfl, rfl, rfl⟩
  · have heval : Expr.eval (fuel + 1) f (.slice name start stop) m =
        Value.slice name target (Selection.clamp i) (Selection.clamp j) (Selection.clamp 1) m₂ := by
      simp only [Expr.eval, Expr.evalWith]
      rw [Eval.bind_of_ok hlookup, Eval.bind_of_ok (hstart.position name),
        Eval.bind_of_ok (hstop.position name)]
      rfl
    rw [heval]
    exact Value.sliceEnds hitems hlength name i j 1 m₂
  · have heval : Expr.eval (fuel + 1) f (.stride name start stop step) m =
        Value.slice name target (Selection.clamp i) (Selection.clamp j) (Selection.clamp k) m₃ := by
      simp only [Expr.eval, Expr.evalWith]
      rw [Eval.bind_of_ok hlookup, Eval.bind_of_ok (hstart.position name),
        Eval.bind_of_ok (hstop.position name), Eval.bind_of_ok (hstep.position name)]
    rw [heval]
    exact Value.sliceEnds hitems hlength name i j k m₃

/-- A string of three characters, of which the second takes two bytes and the third four: there is
no element behind the last one, and a step beyond 64 bits leaves the first character of a slice. -/
theorem selections_exact_wide_characters :
    let name : Token := ⟨.identifier, "s", 1, ⟨0, 1⟩⟩
    let m : Machine := { scopes := Scopes.push {} none [("s", .string "añ😀")], depthLimit := 9 }
    let items : List Value := [.string "a", .string "ñ", .string "😀"]
    let literal (x : Float) : Expr := .literal (.number x)
    FailsWith name "Index out of range for 's'." m
        (Expr.eval 2 0 (.element name (literal 3.0)) m) ∧
      SliceEnds name (.string "añ😀") items 1 3 1 m
        (Expr.eval 2 0 (.slice name (literal 1.0) (literal 3.0)) m) ∧
      SliceEnds name (.string "añ😀") items 1 3 (2 ^ 70) m
        (Expr.eval 2 0 (.stride name (literal 1.0) (literal 3.0)
          (literal 1180591620717411303424.0)) m) := by
  intro name m items literal
  have hyields (x : Float) (i : ℤ) (h : Number.value? x = some (i : ℚ)) :
      (literal x).YieldsInt 1 0 i m m := ⟨x, rfl, h⟩
  have hone := hyields 1.0 1 (by decide +kernel)
  have hthree := hyields 3.0 3 (by decide +kernel)
  have hfar := hyields 1180591620717411303424.0 (2 ^ 70) (by decide +kernel)
  have htarget : m.scopes.lookup 0 name.lexeme = some (.string "añ😀") := by cbv
  have hitems : (Value.string "añ😀").elements? = some items := by cbv
  obtain ⟨helement, hslice, hstride⟩ := selections_exact htarget hitems (by decide) 1
  exact ⟨(helement _ 3 m hthree).2 (by decide), hslice _ _ 1 3 m m hone hthree,
    hstride _ _ _ 1 3 (2 ^ 70) m m m hone hthree hfar⟩

end Offside
