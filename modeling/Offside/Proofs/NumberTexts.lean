import Offside.Number.Decimal
import Offside.Proofs.ExactSums

/-!
# Texts of numbers

The text of a finite number determines the number. It spells out a decimal from the number's
rounding interval: on the grid of seventeen digits the nearer neighbour always lies inside. And the
rounding intervals of two numbers have at most an end in common, which then belongs to one of them
only, since the two significands differ in parity there.
-/

namespace Offside.Number

open Float.Model
open Float.Model.UnpackedFloat

/-! ## Spelled decimals -/

/-- One more digit multiplies by ten and adds. -/
@[simp]
theorem digitsValue_concat (digits : List Char) (c : Char) :
    digitsValue (digits ++ [c]) = 10 * digitsValue digits + (c.toNat - '0'.toNat) := by
  simp [digitsValue, List.foldl_append]

/-- Digits in front are worth a power of ten more. -/
theorem digitsValue_append (front behind : List Char) :
    digitsValue (front ++ behind) =
      digitsValue front * 10 ^ behind.length + digitsValue behind := by
  induction behind using List.reverseRecOn with
  | nil => simp [digitsValue]
  | append_singleton behind c ih =>
    rw [← List.append_assoc, digitsValue_concat, digitsValue_concat, ih, List.length_append,
      List.length_singleton, pow_succ]
    ring

/-- Zeros are worth nothing. -/
theorem digitsValue_zeros (n : ℕ) : digitsValue (List.replicate n '0') = 0 := by
  induction n with
  | zero => rfl
  | succ n ih => rw [List.replicate_succ', digitsValue_concat, ih]; rfl

/-- The digits of a number are worth the number. -/
theorem digitsValue_toDigits (n : ℕ) : digitsValue (Nat.toDigits 10 n) = n :=
  Nat.ofDigitChars_ten_toDigits

/-- A text of digits, with a point among them if there is a fraction, and the number it spells. -/
inductive Spells : List Char → ℚ → Prop
  | whole {cs : List Char} : cs ≠ [] → (∀ c ∈ cs, c.isDigit) → Spells cs (digitsValue cs)
  | point {whole fraction : List Char} : whole ≠ [] → (∀ c ∈ whole ++ fraction, c.isDigit) →
    Spells (whole ++ '.' :: fraction) (digitsValue (whole ++ fraction) / 10 ^ fraction.length)

namespace Spells

variable {cs : List Char} {a b : ℚ}

/-- A numeral holds only digits and points. -/
theorem mem (h : Spells cs a) {c : Char} (hc : c ∈ cs) : c.isDigit ∨ c = '.' := by
  cases h with
  | whole _ hdigits => exact .inl (hdigits c hc)
  | point _ hdigits =>
    simp only [List.mem_append, List.mem_cons] at hc hdigits
    rcases hc with hc | rfl | hc
    · exact .inl (hdigits c (.inl hc))
    · exact .inr rfl
    · exact .inl (hdigits c (.inr hc))

/-- A numeral starts with a digit. -/
theorem head (h : Spells cs a) : ∃ c rest, cs = c :: rest ∧ c.isDigit := by
  cases h with
  | whole hne hdigits =>
    obtain ⟨c, rest, rfl⟩ := List.exists_cons_of_ne_nil hne
    exact ⟨c, rest, rfl, hdigits c List.mem_cons_self⟩
  | point hne hdigits =>
    obtain ⟨c, rest, rfl⟩ := List.exists_cons_of_ne_nil hne
    exact ⟨c, _, rfl, hdigits c List.mem_cons_self⟩

/-- A numeral spells one value only. -/
theorem unique (h : Spells cs a) (h' : Spells cs b) : a = b := by
  have hpoint {ds : List Char} (hds : ∀ c ∈ ds, c.isDigit) : '.' ∉ ds := fun hmem =>
    absurd (hds '.' hmem) (by decide)
  cases h with
  | whole _ hdigits =>
    generalize hcs : cs = cs' at h'
    cases h' with
    | whole => rfl
    | point => exact absurd (by simp) (hpoint (hcs ▸ hdigits))
  | @point whole fraction _ hdigits =>
    generalize hcs : whole ++ '.' :: fraction = cs' at h'
    cases h' with
    | whole _ hdigits' => exact absurd (by simp [← hcs]) (hpoint hdigits')
    | @point whole' fraction' _ hdigits' =>
      have hwhole := hpoint fun c hc => hdigits c (List.mem_append_left _ hc)
      have hfraction := hpoint fun c hc => hdigits c (List.mem_append_right _ hc)
      obtain ⟨rfl, -, rfl⟩ := (List.append_cons_inj_of_notMem hwhole hfraction).mp hcs
      rfl

end Spells

/-- The number that a decimal stands for. -/
def Decimal.value (d : Decimal) : ℚ := d.digits * 10 ^ d.exponent

/-- Normalizing a decimal keeps its value. -/
theorem Decimal.value_normalize (d : Decimal) (limit : ℕ) :
    (d.normalize limit).value = d.value := by
  induction limit generalizing d with
  | zero => rfl
  | succ limit ih =>
    rw [Decimal.normalize]
    split
    next h =>
      have hdigits : (d.digits : ℚ) = (d.digits / 10 : ℕ) * 10 := by
        exact_mod_cast (Nat.div_mul_cancel (Nat.dvd_of_mod_eq_zero h.2)).symm
      rw [ih, value, value, hdigits, zpow_add_one₀ (by norm_num)]
      ring
    next => rfl

/-- The text of a decimal spells its value. -/
theorem Decimal.spells_text (d : Decimal) : Spells d.text.toList d.value := by
  have hdigits : ∀ c ∈ Nat.toDigits 10 d.digits, c.isDigit := fun c hc =>
    Nat.isDigit_of_mem_toDigits (by decide) (by decide) hc
  have hzeros (n : ℕ) : ∀ c ∈ List.replicate n '0', c.isDigit := by
    intro c hc
    rw [List.eq_of_mem_replicate hc]
    decide
  rw [Decimal.text]
  split
  next hplaces =>
    obtain ⟨k, hk⟩ : ∃ k : ℕ, d.exponent = k := ⟨d.exponent.toNat, by omega⟩
    have hvalue : d.value =
        (digitsValue (Nat.toDigits 10 d.digits ++ List.replicate k '0') : ℕ) := by
      rw [digitsValue_append, digitsValue_toDigits, digitsValue_zeros, Decimal.value, hk]
      simp
    rw [hvalue, hk, String.toList_ofList, Int.toNat_natCast]
    refine .whole (by simp [Nat.toDigits_ne_nil]) fun c hc => ?_
    exact (List.mem_append.mp hc).elim (hdigits c) (hzeros k c)
  next hplaces =>
    obtain ⟨k, hk⟩ : ∃ k : ℕ, d.exponent = -k := ⟨(-d.exponent).toNat, by omega⟩
    simp only [hk, neg_neg, Int.toNat_natCast] at hplaces ⊢
    set padded :=
      List.replicate (k + 1 - (Nat.toDigits 10 d.digits).length) '0' ++ Nat.toDigits 10 d.digits
      with hpadded
    have hlength : k < padded.length := by
      simp only [hpadded, List.length_append, List.length_replicate]
      omega
    have hvalue : d.value =
        (digitsValue (padded.take (padded.length - k) ++ padded.drop (padded.length - k)) : ℕ) /
          10 ^ (padded.drop (padded.length - k)).length := by
      have hfraction : (padded.drop (padded.length - k)).length = k := by
        rw [List.length_drop]
        omega
      rw [List.take_append_drop, hpadded, digitsValue_append, ← hpadded, digitsValue_zeros,
        digitsValue_toDigits, hfraction, Decimal.value, hk]
      simp [div_eq_mul_inv]
    rw [hvalue, String.toList_ofList]
    refine .point (List.ne_nil_of_length_pos ?_) fun c hc => ?_
    · rw [List.length_take]
      omega
    · rw [List.take_append_drop] at hc
      exact (List.mem_append.mp hc).elim (hzeros _ c) (hdigits c)

/-! ## Rounding intervals -/

/-- The width of the lower half of a rounding interval, in quarters of the last place. -/
def quartersBelow (m : ℕ) (e : ℤ) : ℕ :=
  if m = twoPow fractionBits ∧ minExponent < e then 1 else 2

/-- The lower end of the reals that round to `m * 2 ^ e`. -/
def lowEnd (m : ℕ) (e : ℤ) : ℚ := (4 * m - quartersBelow m e) * 2 ^ (e - 2)

/-- The upper end of the reals that round to `m * 2 ^ e`. -/
def highEnd (m : ℕ) (e : ℤ) : ℚ := (4 * m + 2) * 2 ^ (e - 2)

/-- A number rounds to `m * 2 ^ e`: it lies in the rounding interval, and inside it if the ends do
not belong to the interval. -/
structure RoundsTo (m : ℕ) (e : ℤ) (a : ℚ) : Prop where
  low_le : lowEnd m e ≤ a
  le_high : a ≤ highEnd m e
  inside : m % 2 ≠ 0 → lowEnd m e < a ∧ a < highEnd m e

section Intervals

variable {m m' : ℕ} {e e' : ℤ} {a : ℚ}

/-- What lies strictly between the two ends rounds to the number. -/
theorem RoundsTo.of_inside (hlow : lowEnd m e < a) (hhigh : a < highEnd m e) : RoundsTo m e a :=
  ⟨hlow.le, hhigh.le, fun _ => ⟨hlow, hhigh⟩⟩

/-- The lower end is at most half a unit away. -/
theorem quartersBelow_le (m : ℕ) (e : ℤ) : quartersBelow m e ≤ 2 := by
  rw [quartersBelow]
  split <;> omega

/-- The lower end of a positive number is positive. -/
theorem lowEnd_pos (hm : 0 < m) : 0 < lowEnd m e := by
  have hquarters := quartersBelow_le m e
  have hdifference : (0 : ℚ) < 4 * m - quartersBelow m e := by
    rw [sub_pos]
    exact_mod_cast (by omega : quartersBelow m e < 4 * m)
  rw [lowEnd]
  positivity

/-- The lower end of a larger number in quarters of the last place of the smaller one. -/
theorem exists_le_lowEnd (h : Stored m e) (h' : Stored m' e') (hlt : e < e' ∨ e = e' ∧ m < m') :
    ∃ n : ℕ, n * 2 ^ (e - 2) ≤ lowEnd m' e' ∧ 4 * m + 2 ≤ n ∧
      (m % 2 = 0 → m' % 2 = 0 → 4 * m + 2 < n) := by
  have hm := h.lt
  have hpos := h'.pos
  have hquarters := quartersBelow_le m' e'
  have hle : quartersBelow m' e' ≤ 4 * m' := by omega
  rcases hlt with hlt | ⟨rfl, hlt⟩
  · -- The larger number uses all bits of its significand, and its last place is twice as large.
    have hm' : 2 ^ 52 ≤ m' := h'.full.resolve_right (by have := h.le_exponent; omega)
    have hpower : (2 : ℚ) * 2 ^ (e - 2) ≤ 2 ^ (e' - 2) := by
      rw [mul_comm, ← zpow_add_one₀ (by norm_num)]
      exact zpow_le_zpow_right₀ (by norm_num) (by omega)
    have hthin : m' = 2 ^ 52 → quartersBelow m' e' = 1 := fun heq =>
      if_pos ⟨heq, lt_of_le_of_lt h.le_exponent hlt⟩
    refine ⟨2 * (4 * m' - quartersBelow m' e'), ?_, ?_, ?_⟩
    · calc ((2 * (4 * m' - quartersBelow m' e') : ℕ) : ℚ) * 2 ^ (e - 2)
          = (4 * m' - quartersBelow m' e') * (2 * 2 ^ (e - 2)) := by
            push_cast [hle]
            ring
        _ ≤ (4 * m' - quartersBelow m' e') * 2 ^ (e' - 2) := by
            refine mul_le_mul_of_nonneg_left hpower (sub_nonneg.mpr ?_)
            exact_mod_cast hle
    · omega
    · omega
  · refine ⟨4 * m' - quartersBelow m' e, ?_, by omega, by omega⟩
    push_cast [hle]
    exact le_rfl

/-- The rounding interval of the smaller of two numbers ends where that of the larger one begins,
or before. The end of the one is not also an end of the other. -/
theorem highEnd_le_lowEnd (h : Stored m e) (h' : Stored m' e') (hlt : e < e' ∨ e = e' ∧ m < m') :
    highEnd m e ≤ lowEnd m' e' ∧ (m % 2 = 0 → m' % 2 = 0 → highEnd m e < lowEnd m' e') := by
  obtain ⟨n, hn, hle, heven⟩ := exists_le_lowEnd h h' hlt
  have hunit : (0 : ℚ) < 2 ^ (e - 2) := by positivity
  constructor
  · refine le_trans (mul_le_mul_of_nonneg_right ?_ hunit.le) hn
    exact_mod_cast hle
  · intro hm hm'
    refine lt_of_lt_of_le (mul_lt_mul_of_pos_right ?_ hunit) hn
    exact_mod_cast heven hm hm'

/-- At most one number is rounded to. -/
theorem RoundsTo.unique (h : Stored m e) (h' : Stored m' e') (ha : RoundsTo m e a)
    (ha' : RoundsTo m' e' a) : m = m' ∧ e = e' := by
  have key {m m' : ℕ} {e e' : ℤ} (h : Stored m e) (h' : Stored m' e') (ha : RoundsTo m e a)
      (ha' : RoundsTo m' e' a) : ¬(e < e' ∨ e = e' ∧ m < m') := by
    intro hlt
    obtain ⟨hle, heven⟩ := highEnd_le_lowEnd h h' hlt
    have hhigh := ha.le_high
    have hlow := ha'.low_le
    by_cases hm : m % 2 = 0
    · by_cases hm' : m' % 2 = 0
      · exact absurd (heven hm hm') (not_lt.mpr (hlow.trans hhigh))
      · exact absurd (ha'.inside hm').1 (not_lt.mpr (hhigh.trans hle))
    · exact absurd (ha.inside hm).2 (not_lt.mpr (hle.trans hlow))
  have hbefore := key h h' ha ha'
  have hbehind := key h' h ha' ha
  omega

end Intervals

/-! ## The search for a decimal -/

/-- An integral power is a quotient of two natural ones. -/
theorem zpow_eq_toNat_div (b : ℚ) (k : ℤ) : b ^ k = b ^ k.toNat / b ^ (-k).toNat := by
  rcases le_total 0 k with hk | hk
  · lift k to ℕ using hk
    simp
  · obtain ⟨n, rfl⟩ : ∃ n : ℕ, k = -n := ⟨(-k).toNat, by omega⟩
    simp

namespace Rounding

/-- The number whose rounding interval it is. -/
def quotient (r : Rounding) : ℚ := r.value / r.denominator

variable {m : ℕ} {e : ℤ}

/-- The quotient of a rounding is the number itself, counted in quarters of its last place. -/
theorem quotient_roundingOf (m : ℕ) (e : ℤ) :
    (roundingOf m e).quotient = 4 * m * 2 ^ (e - 2) := by
  rw [zpow_eq_toNat_div]
  simp [quotient, roundingOf, twoPow, mul_div_assoc]

/-- The lower bound of a rounding is the lower end of its number. -/
theorem low_roundingOf (hm : 0 < m) (e : ℤ) :
    ((roundingOf m e).low : ℚ) / (roundingOf m e).denominator = lowEnd m e := by
  have hle : quartersBelow m e ≤ 4 * m := (quartersBelow_le m e).trans (by omega)
  change (((4 * m - quartersBelow m e) * twoPow (e - 2).toNat : ℕ) : ℚ) /
    twoPow (-(e - 2)).toNat = _
  rw [lowEnd, zpow_eq_toNat_div, mul_div_assoc']
  push_cast [hle, twoPow]
  simp

/-- The upper bound of a rounding is the upper end of its number. -/
theorem high_roundingOf (m : ℕ) (e : ℤ) :
    ((roundingOf m e).high : ℚ) / (roundingOf m e).denominator = highEnd m e := by
  rw [highEnd, zpow_eq_toNat_div]
  simp [roundingOf, twoPow, mul_div_assoc]

/-- The bounds of a rounding have a positive denominator. -/
theorem denominator_roundingOf_pos (m : ℕ) (e : ℤ) :
    (0 : ℚ) < (roundingOf m e).denominator := by
  simp [roundingOf, twoPow]

/-- A decimal is contained when it lies between the ends, which count for even mantissas. -/
theorem contains_iff (hm : 0 < m) {d : Decimal} : (roundingOf m e).contains d ↔
    if m % 2 = 0 then lowEnd m e ≤ d.value ∧ d.value ≤ highEnd m e
    else lowEnd m e < d.value ∧ d.value < highEnd m e := by
  have hvalue :
      d.value = (d.digits * tenPow d.exponent.toNat : ℕ) / tenPow (-d.exponent).toNat := by
    rw [Decimal.value, zpow_eq_toNat_div, mul_div_assoc']
    simp [tenPow]
  have hunit : (0 : ℚ) < tenPow (-d.exponent).toNat := by simp [tenPow]
  have hdenominator := denominator_roundingOf_pos m e
  have hclosed : (roundingOf m e).closed = decide (m % 2 = 0) := rfl
  rw [contains, hclosed, hvalue, ← low_roundingOf hm, ← high_roundingOf,
    div_le_div_iff₀ hdenominator hunit, div_le_div_iff₀ hunit hdenominator,
    div_lt_div_iff₀ hdenominator hunit, div_lt_div_iff₀ hunit hdenominator]
  norm_cast
  split <;> simp_all

/-- A decimal that is found to round to the number does so. -/
theorem roundsTo_of_contains (hm : 0 < m) {d : Decimal} (h : (roundingOf m e).contains d) :
    RoundsTo m e d.value := by
  rw [contains_iff hm] at h
  split at h
  next heven => exact ⟨h.1, h.2, fun hodd => absurd heven hodd⟩
  next => exact RoundsTo.of_inside h.1 h.2

/-- A decimal strictly between the two ends is contained. -/
theorem contains_of_inside (hm : 0 < m) {d : Decimal} (hlow : lowEnd m e < d.value)
    (hhigh : d.value < highEnd m e) : (roundingOf m e).contains d := by
  rw [contains_iff hm]
  split
  · exact ⟨hlow.le, hhigh.le⟩
  · exact ⟨hlow, hhigh⟩

/-- A neighbour that is found is contained. -/
theorem contains_of_neighbour? {r : Rounding} {k : ℤ} {d : Decimal}
    (h : r.neighbour? k = some d) : r.contains d := by
  rw [neighbour?] at h
  split at h
  next hdown hup =>
    obtain rfl := Option.some_inj.mp h
    split <;> assumption
  next hdown hup =>
    obtain rfl := Option.some_inj.mp h
    exact hdown
  next hdown hup =>
    obtain rfl := Option.some_inj.mp h
    exact hup
  next => cases h

/-- So is the decimal a search finds. -/
theorem contains_of_search {r : Rounding} {k : ℤ} {n : ℕ} {d : Decimal}
    (h : r.search k n = some d) : r.contains d := by
  induction n generalizing k with
  | zero => cases h
  | succ n ih =>
    rw [search, Option.or_eq_some_iff] at h
    rcases h with h | ⟨-, h⟩
    · exact contains_of_neighbour? h
    · exact ih h

/-- A grid with a decimal that rounds to the number ends the search. -/
theorem exists_search {r : Rounding} {k : ℤ} {n i : ℕ} (hi : i < n)
    (h : (r.neighbour? (k - i)).isSome) : ∃ d, r.search k n = some d := by
  induction n generalizing k i with
  | zero => cases hi
  | succ n ih =>
    rw [search]
    cases hfound : r.neighbour? k with
    | some d => exact ⟨d, rfl⟩
    | none =>
      cases i with
      | zero => simp [hfound] at h
      | succ i =>
        rw [Option.none_or]
        refine ih (Nat.lt_of_succ_lt_succ hi) (i := i) ?_
        rwa [Int.sub_sub, Int.add_comm, ← Int.natCast_succ]

/-- One of the two neighbours of the number on a decimal grid rounds to the number, if half a step
of the grid reaches from the number to neither end of its rounding interval. -/
theorem isSome_neighbour? (hm : 0 < m) {k : ℤ}
    (hlow : lowEnd m e < (roundingOf m e).quotient - 10 ^ k / 2)
    (hhigh : (roundingOf m e).quotient + 10 ^ k / 2 < highEnd m e) :
    ((roundingOf m e).neighbour? k).isSome := by
  set r := roundingOf m e
  let scaled := r.value * tenPow (-k).toNat
  let unit := r.denominator * tenPow k.toNat
  let down : Decimal := ⟨scaled / unit, k⟩
  let up : Decimal := ⟨scaled / unit + 1, k⟩
  have hdenominator : (0 : ℚ) < r.denominator := denominator_roundingOf_pos m e
  have hstep : (0 : ℚ) < 10 ^ k := by positivity
  have hunit : 0 < unit := by
    have : 0 < r.denominator := by exact_mod_cast hdenominator
    have : 0 < tenPow k.toNat := by simp [tenPow]
    positivity
  have hquotient : r.quotient = (scaled : ℚ) / unit * 10 ^ k := by
    rw [zpow_eq_toNat_div, quotient]
    simp only [scaled, unit, tenPow, Nat.pow_eq]
    push_cast
    field_simp
  have hdown : down.value ≤ r.quotient := by
    rw [hquotient]
    exact mul_le_mul_of_nonneg_right Nat.cast_div_le hstep.le
  have hup : r.quotient < up.value := by
    rw [hquotient]
    refine mul_lt_mul_of_pos_right ?_ hstep
    rw [div_lt_iff₀ (by exact_mod_cast hunit)]
    exact_mod_cast Nat.succ_mul _ _ ▸ Nat.lt_div_mul_add hunit
  have hbetween : up.value = down.value + 10 ^ k := by
    simp only [Decimal.value, up, down]
    push_cast
    ring
  have hcontains : r.contains down ∨ r.contains up := by
    by_cases hnear : r.quotient ≤ down.value + 10 ^ k / 2
    · exact .inl (contains_of_inside hm (by linarith) (by linarith))
    · exact .inr (contains_of_inside hm (by linarith) (by linarith))
  simp only [neighbour?]
  split
  · rfl
  · rfl
  · rfl
  · rename_i hfirst hsecond
    have hnone : r.contains down = false ∧ r.contains up = false := ⟨hfirst, hsecond⟩
    simp [hnone] at hcontains

/-- A rounding is not below the power of ten that its magnitude stands for. -/
theorem pow_le_of_magnitude {r : Rounding} (hvalue : 0 < r.value)
    (hdenominator : 0 < r.denominator) :
    (10 : ℚ) ^ (r.magnitude - 1) ≤ r.quotient := by
  have hcount (n : ℕ) : 0 < digitCount n := List.length_pos_of_ne_nil Nat.toDigits_ne_nil
  have hlt (n : ℕ) : n < 10 ^ digitCount n :=
    (Nat.length_toDigits_le_iff (by decide) (hcount n)).mp le_rfl
  rw [magnitude, quotient, le_div_iff₀ (by exact_mod_cast hdenominator)]
  split
  next hle =>
    set n := r.value / r.denominator with hn
    have hpos : 0 < n := Nat.div_pos hle hdenominator
    have hpow : 10 ^ (digitCount n - 1) ≤ n := by
      rcases Nat.eq_zero_or_pos (digitCount n - 1) with hzero | hlast
      · rw [hzero]
        exact hpos
      · by_contra hless
        have := (Nat.length_toDigits_le_iff (by decide) hlast).mpr (not_le.mp hless)
        have : digitCount n ≤ digitCount n - 1 := this
        omega
    have hexponent : (digitCount n : ℤ) - 1 = (digitCount n - 1 : ℕ) := by
      have := hcount n
      omega
    rw [hexponent, zpow_natCast]
    exact_mod_cast (Nat.mul_le_mul_right _ hpow).trans (Nat.div_mul_le_self _ _)
  next hgt =>
    set n := (r.denominator - 1) / r.value with hn
    have hbound : r.denominator ≤ 10 ^ digitCount n * r.value := by
      have := Nat.lt_mul_of_div_lt (hlt n) hvalue
      omega
    have hexponent : (1 : ℤ) - digitCount n - 1 = -digitCount n := by omega
    rw [hexponent, zpow_neg, zpow_natCast, inv_mul_le_iff₀ (by positivity)]
    exact_mod_cast hbound

/-- The search always succeeds: a grid of seventeen digits is fine enough. -/
theorem exists_search_of_stored (h : Stored m e) :
    ∃ d, (roundingOf m e).search ((roundingOf m e).magnitude - 1) 17 = some d := by
  set r := roundingOf m e with hr
  have hvalue : 0 < r.value := by simp [hr, roundingOf, twoPow, h.pos]
  have hdenominator : 0 < r.denominator := by simp [hr, roundingOf, twoPow]
  obtain ⟨k, hk⟩ : ∃ k, r.magnitude - 1 - (16 : ℕ) = k := ⟨_, rfl⟩
  have hunit : (0 : ℚ) < 2 ^ (e - 2) := by positivity
  have hgrid : (10 : ℚ) ^ k * 10 ^ 16 ≤ 4 * m * 2 ^ (e - 2) := by
    rw [← quotient_roundingOf, ← hk, ← zpow_natCast, ← zpow_add₀ (by norm_num), Int.sub_add_cancel]
    exact pow_le_of_magnitude hvalue hdenominator
  -- Both halves of the interval are wider than half a step of the grid.
  have hhalf (quarters : ℕ) (hle : 4 * m ≤ quarters * 2 ^ 54) :
      (10 : ℚ) ^ k / 2 < quarters * 2 ^ (e - 2) := by
    have hquarters : 0 < quarters := by
      have hm := h.pos
      by_contra hzero
      obtain rfl : quarters = 0 := by omega
      omega
    have hwide : (4 * m : ℚ) * 2 ^ (e - 2) ≤ quarters * 2 ^ 54 * 2 ^ (e - 2) :=
      mul_le_mul_of_nonneg_right (by exact_mod_cast hle) hunit.le
    have hpos : (0 : ℚ) < quarters * 2 ^ (e - 2) := by positivity
    linarith
  have hlt := h.lt
  have hbelow : 4 * m ≤ quartersBelow m e * 2 ^ 54 := by
    have hbits : twoPow fractionBits = 2 ^ 52 := rfl
    rw [quartersBelow]
    split <;> omega
  have habove : 4 * m ≤ 2 * 2 ^ 54 := (Nat.mul_le_mul_left 4 hlt.le).trans (by norm_num)
  have hquotient := quotient_roundingOf m e
  refine exists_search (show 16 < 17 by decide) ?_
  rw [hk]
  refine isSome_neighbour? h.pos ?_ ?_
  · rw [hquotient, lowEnd]
    linarith [hhalf _ hbelow]
  · rw [hquotient, highEnd]
    have := hhalf 2 habove
    push_cast at this
    linarith

end Rounding

/-! ## Texts -/

/-- The text of a number without its sign. -/
def unsignedText (m : ℕ) (e : ℤ) : String :=
  if m = 0 then "0" else ((roundingOf m e).shortest.normalize 17).text

/-- The text without the sign spells out a decimal that rounds to the number. -/
theorem spells_unsignedText {m : ℕ} {e : ℤ} (h : 0 < m → Stored m e) :
    ∃ a, Spells (unsignedText m e).toList a ∧ (m = 0 ∧ a = 0 ∨ Stored m e ∧ RoundsTo m e a) := by
  rcases Nat.eq_zero_or_pos m with rfl | hm
  · have hzero : Spells ['0'] (digitsValue ['0']) := .whole (by simp) (by simp)
    refine ⟨(digitsValue ['0'] : ℕ), ?_, .inl ⟨rfl, Nat.cast_zero⟩⟩
    rw [unsignedText, if_pos rfl]
    exact hzero
  · obtain ⟨d, hd⟩ := Rounding.exists_search_of_stored (h hm)
    have hshortest : (roundingOf m e).shortest = d := by rw [Rounding.shortest, hd]; rfl
    have hrounds := Rounding.roundsTo_of_contains hm (Rounding.contains_of_search hd)
    refine ⟨d.value, ?_, .inr ⟨h hm, hrounds⟩⟩
    rw [unsignedText, if_neg hm.ne', hshortest, ← Decimal.value_normalize d 17]
    exact Decimal.spells_text _

/-- Texts without a sign determine mantissa and exponent. -/
theorem unsignedText_injective {m m' : ℕ} {e e' : ℤ} (h : 0 < m → Stored m e)
    (h' : 0 < m' → Stored m' e') (heq : unsignedText m e = unsignedText m' e') :
    m = 0 ∧ m' = 0 ∨ m = m' ∧ e = e' := by
  obtain ⟨a, hspells, ha⟩ := spells_unsignedText h
  obtain ⟨b, hspells', hb⟩ := spells_unsignedText h'
  obtain rfl := hspells.unique (heq ▸ hspells')
  have hpos {m : ℕ} {e : ℤ} (h : Stored m e) (ha : RoundsTo m e a) : 0 < a :=
    (lowEnd_pos h.pos).trans_le ha.low_le
  rcases ha with ⟨rfl, rfl⟩ | ⟨hm, ha⟩
  · rcases hb with ⟨rfl, -⟩ | ⟨hm', hb⟩
    · exact .inl ⟨rfl, rfl⟩
    · exact absurd (hpos hm' hb) (lt_irrefl _)
  · rcases hb with ⟨-, rfl⟩ | ⟨hm', hb⟩
    · exact absurd (hpos hm ha) (lt_irrefl _)
    · exact .inr (RoundsTo.unique hm hm' ha hb)

/-- Whether a number is neither an infinity nor the value that is not a number. -/
def isFinite (x : Float) : Bool :=
  match decode x with
  | .finite _ _ _ => true
  | _ => false

/-- The two signs are told apart. -/
theorem isMinus_injective : Function.Injective isMinus := by
  intro s s' h
  cases s <;> cases s' <;> first | rfl | cases h

/-- Decoding loses nothing of an unpacked number. -/
theorem decodeUnpacked_injective : Function.Injective decodeUnpacked := by
  intro u v h
  cases u with
  | notANumber => cases v <;> first | rfl | cases h
  | infinity s =>
    cases v with
    | infinity s' => rw [isMinus_injective (Decoded.infinite.inj h)]
    | notANumber | zero | finite => cases h
  | zero s =>
    cases v with
    | zero s' => rw [isMinus_injective (Decoded.finite.inj h).1]
    | finite s' m' e' hm' => exact absurd (Decoded.finite.inj h).2.1 hm'.ne
    | notANumber | infinity => cases h
  | finite s m e hm =>
    cases v with
    | zero s' => exact absurd (Decoded.finite.inj h).2.1 hm.ne'
    | finite s' m' e' hm' =>
      obtain ⟨hsign, rfl, rfl⟩ := Decoded.finite.inj h
      rw [isMinus_injective hsign]
    | notANumber | infinity => cases h

/-- A number is determined by its fields. -/
theorem decode_injective : Function.Injective decode := by
  intro x y h
  rw [decode_eq, decode_eq] at h
  have hmodel : x.toModel = y.toModel := by
    rw [← pack_unpack x, decodeUnpacked_injective h, pack_unpack]
  exact congrArg Float.ofModel hmodel

/-- The fields of a finite number. -/
structure Fields (x : Float) (negative : Bool) (m : ℕ) (e : ℤ) : Prop where
  decodes : decode x = .finite negative m e
  stored : 0 < m → Stored m e
  least : m = 0 → e = minExponent

/-- Every finite number has its fields. -/
theorem exists_fields {x : Float} (h : isFinite x) : ∃ negative m e, Fields x negative m e := by
  rw [isFinite, decode_eq] at h
  cases hunpack : x.toModel.unpack with
  | infinity s => simp [hunpack, decodeUnpacked] at h
  | notANumber => simp [hunpack, decodeUnpacked] at h
  | zero s =>
    have hdecodes : decode x = .finite (isMinus s) 0 minExponent := by rw [decode_eq, hunpack]; rfl
    exact ⟨_, _, _, hdecodes, fun hpos => absurd hpos (lt_irrefl 0), fun _ => rfl⟩
  | finite s m e hm =>
    have hdecodes : decode x = .finite (isMinus s) m e := by rw [decode_eq, hunpack]; rfl
    exact ⟨_, _, _, hdecodes, fun _ => stored_of_unpack hunpack, fun hzero => absurd hzero hm.ne'⟩

/-- The text of a finite number is the unsigned text behind its sign. -/
theorem Fields.toList_text {x : Float} {negative : Bool} {m : ℕ} {e : ℤ}
    (h : Fields x negative m e) (spelling : Spelling) : (text spelling x).toList =
      if negative then '-' :: (unsignedText m e).toList else (unsignedText m e).toList := by
  rw [text, h.decodes]
  have hsigned (s : String) : (text.signed negative s).toList =
      if negative then '-' :: s.toList else s.toList := by
    cases negative <;> simp [text.signed]
  simp only [unsignedText]
  split <;> exact hsigned _

/-- The text of a finite number begins with a digit or a minus sign, and consists of digits, minus
signs and points. -/
theorem exists_text_eq_cons {x : Float} (h : isFinite x) (spelling : Spelling) :
    ∃ c cs, (text spelling x).toList = c :: cs ∧ (c.isDigit ∨ c = '-') ∧
      ∀ c' ∈ c :: cs, c'.isDigit ∨ c' = '.' ∨ c' = '-' := by
  obtain ⟨negative, m, e, hfields⟩ := exists_fields h
  obtain ⟨a, hspells, -⟩ := spells_unsignedText hfields.stored
  obtain ⟨c, cs, hcs, hc⟩ := hspells.head
  rw [hfields.toList_text]
  cases negative with
  | false => exact ⟨c, cs, hcs, .inl hc, fun c' hc' => (hspells.mem (hcs ▸ hc')).imp_right .inl⟩
  | true =>
    refine ⟨'-', _, rfl, .inr rfl, fun c' hc' => ?_⟩
    rcases List.mem_cons.mp hc' with rfl | hc'
    · exact .inr (.inr rfl)
    · exact (hspells.mem hc').imp_right .inl

/-- Two finite numbers with the same text are the same number. -/
theorem text_injective {x y : Float} (hx : isFinite x) (hy : isFinite y) {spelling : Spelling}
    (h : text spelling x = text spelling y) : x = y := by
  obtain ⟨negative, m, e, hfields⟩ := exists_fields hx
  obtain ⟨negative', m', e', hfields'⟩ := exists_fields hy
  obtain ⟨a, hspells, -⟩ := spells_unsignedText hfields.stored
  obtain ⟨b, hspells', -⟩ := spells_unsignedText hfields'.stored
  have hplain {cs : List Char} {a : ℚ} (h : Spells cs a) (rest : List Char) : cs ≠ '-' :: rest := by
    obtain ⟨c, cs, rfl, hc⟩ := h.head
    rintro heq
    cases heq
    exact absurd hc (by decide)
  have hlists := congrArg String.toList h
  rw [hfields.toList_text, hfields'.toList_text] at hlists
  obtain ⟨rfl, htext⟩ : negative = negative' ∧ unsignedText m e = unsignedText m' e' := by
    cases negative <;> cases negative'
    · exact ⟨rfl, String.toList_inj.mp hlists⟩
    · exact absurd hlists (hplain hspells _)
    · exact absurd hlists.symm (hplain hspells' _)
    · exact ⟨rfl, String.toList_inj.mp (List.cons.inj hlists).2⟩
  rcases unsignedText_injective hfields.stored hfields'.stored htext with ⟨rfl, rfl⟩ | ⟨rfl, rfl⟩
  · obtain rfl : e = e' := (hfields.least rfl).trans (hfields'.least rfl).symm
    exact decode_injective (hfields.decodes.trans hfields'.decodes.symm)
  · exact decode_injective (hfields.decodes.trans hfields'.decodes.symm)

end Offside.Number
