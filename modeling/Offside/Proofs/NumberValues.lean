import Mathlib
import Offside.Number.Dyadic

/-!
# What numbers stand for

A finite number stands for a rational number. Reading the fields of a bit pattern gives it, whether
it is an integer can be seen from it, and comparing numbers is comparing what they stand for: a
significand uses all its bits unless the exponent is the least one, so of two positive numbers the
one with the larger exponent is larger.
-/

namespace Offside.Number

open Float.Model
open Float.Model.UnpackedFloat

/-- The rational number that an unpacked number stands for, if it is finite. -/
def unpackedValue? : UnpackedFloat → Option ℚ
  | .zero _ => some 0
  | .finite s m e _ => some (s.apply m * 2 ^ e)
  | .infinity _ | .notANumber => none

/-- The rational number that a number stands for, if it is finite. -/
def value? (x : Float) : Option ℚ := unpackedValue? x.toModel.unpack

/-- Whether a sign is a minus. -/
def isMinus : Sign → Bool
  | .negative => true
  | .positive => false

/-- An unpacked number in terms of sign, significand and exponent. -/
def decodeUnpacked : UnpackedFloat → Decoded
  | .notANumber => .nan
  | .infinity s => .infinite (isMinus s)
  | .zero s => .finite (isMinus s) 0 minExponent
  | .finite s m e _ => .finite (isMinus s) m e

section Fields

variable (b : BitVec 64)

/-- The mantissa is what the low bits hold. -/
theorem toNat_unpackMantissa :
    (@unpackMantissa .binary64 b).toNat = b.toNat % twoPow fractionBits := by
  simp [unpackMantissa, twoPow, fractionBits]

/-- The exponent is what the bits above the mantissa hold. -/
theorem toNat_unpackExponent :
    (@unpackExponent .binary64 b).toNat = b.toNat / twoPow fractionBits % twoPow exponentBits := by
  simp [unpackExponent, twoPow, fractionBits, exponentBits, Nat.shiftRight_eq_div_pow]

/-- The sign is what the highest bit holds. -/
theorem isMinus_unpackSign : isMinus (Sign.ofBitVec (@unpackSign .binary64 b)) =
    (b.toNat / twoPow (fractionBits + exponentBits) == 1) := by
  have hbit : (@unpackSign .binary64 b).toNat = b.toNat / twoPow (fractionBits + exponentBits) := by
    have hlt : b.toNat / 2 ^ 63 < 2 := Nat.div_lt_of_lt_mul b.isLt
    simpa [unpackSign, twoPow, fractionBits, exponentBits, Nat.shiftRight_eq_div_pow] using
      Nat.mod_eq_of_lt hlt
  rw [← hbit]
  generalize @unpackSign .binary64 b = sign
  decide +revert

/-- The implicit bit stands above the fraction. -/
theorem toNat_implicit (mantissa : BitVec 52) :
    (1#1 ++ mantissa).toNat = mantissa.toNat + twoPow fractionBits := by
  rw [BitVec.toNat_append, ← Nat.shiftLeft_add_eq_or_of_lt mantissa.isLt, Nat.add_comm]
  rfl

end Fields

/-- The fields of a number are its sign, significand and exponent. -/
theorem decode_eq (x : Float) : decode x = decodeUnpacked x.toModel.unpack := by
  have hmantissa := toNat_unpackMantissa x.toModel.toBits.toBitVec
  have hexponent := toNat_unpackExponent x.toModel.toBits.toBitVec
  have hsign := isMinus_unpackSign x.toModel.toBits.toBitVec
  unfold decode Float.Model.unpack UnpackedFloat.unpack Float.toBits
  simp only [UInt64.toNat_toBitVec] at *
  simp only [← hmantissa, ← hexponent, ← hsign]
  have hspecial : (@unpackExponent .binary64 x.toModel.toBits.toBitVec).toNat =
      twoPow exponentBits - 1 ↔ @unpackExponent .binary64 x.toModel.toBits.toBitVec = -1#11 := by
    rw [← BitVec.toNat_inj]
    rfl
  have hleast : (@unpackExponent .binary64 x.toModel.toBits.toBitVec).toNat = 0 ↔
      @unpackExponent .binary64 x.toModel.toBits.toBitVec = 0#11 := by
    rw [← BitVec.toNat_inj]
    rfl
  have hempty : (@unpackMantissa .binary64 x.toModel.toBits.toBitVec).toNat = 0 ↔
      @unpackMantissa .binary64 x.toModel.toBits.toBitVec = 0#52 := by
    rw [← BitVec.toNat_inj]
    rfl
  simp only [hspecial, hleast, hempty]
  split
  · split <;> rfl
  split
  next h =>
    split
    next hzero =>
      rw [hzero]
      rfl
    next => simp [decodeUnpacked, h, minExponent, Format.exponentBias]
  next h =>
    have hpos := Nat.pos_of_ne_zero (mt hleast.mp h)
    simp only [decodeUnpacked, minExponent, Format.exponentBias, toNat_implicit]
    congr 1
    omega

/-- A sign is applied by negation. -/
theorem signed_eq_apply (s : Sign) (n : ℕ) :
    (if isMinus s = true then -(n : ℤ) else n) = s.apply n := by
  cases s <;> rfl

/-- The integer that a number equals is the one it stands for. -/
theorem toInt?_eq_some_iff {x : Float} {i : ℤ} : toInt? x = some i ↔ value? x = some (i : ℚ) := by
  rw [toInt?, decode_eq, value?]
  cases x.toModel.unpack with
  | infinity s => simp [decodeUnpacked, unpackedValue?]
  | notANumber => simp [decodeUnpacked, unpackedValue?]
  | zero s =>
    have hleast : ¬0 ≤ minExponent := by decide
    simp only [decodeUnpacked, unpackedValue?, signed_eq_apply, if_neg hleast, Nat.zero_mod,
      Nat.zero_div, if_true, Option.some_inj]
    cases s <;> simp [Sign.apply, eq_comm]
  | finite s m e hm =>
    simp only [decodeUnpacked, unpackedValue?, signed_eq_apply, twoPow, Nat.pow_eq,
      Option.some_inj]
    rcases le_or_gt 0 e with he | he
    · lift e to ℕ using he
      simp only [Int.toNat_natCast, Nat.cast_nonneg, if_true, Option.some_inj, zpow_natCast]
      cases s <;> simp [Sign.apply, ← @Int.cast_inj ℚ]
    · obtain ⟨k, rfl⟩ : ∃ k : ℕ, e = -k := ⟨(-e).toNat, by omega⟩
      simp only [neg_neg, Int.toNat_natCast, if_neg he.not_ge, zpow_neg, zpow_natCast]
      have hpow : (2 : ℚ) ^ k ≠ 0 := by positivity
      have hvalue : (s.apply m : ℚ) * (2 ^ k)⁻¹ = i ↔ s.apply m = i * 2 ^ k := by
        rw [← div_eq_mul_inv, div_eq_iff hpow]
        exact_mod_cast Iff.rfl
      rw [hvalue]
      split
      next hdvd =>
        obtain ⟨q, rfl⟩ := Nat.dvd_of_mod_eq_zero hdvd
        have happly : s.apply ((2 ^ k * q : ℕ) : ℤ) = s.apply q * 2 ^ k := by
          cases s <;> simp [Sign.apply, mul_comm]
        rw [Nat.mul_div_cancel_left _ (by positivity), Option.some_inj, happly,
          mul_left_inj' (by positivity)]
      next hdvd =>
        simp only [reduceCtorEq, false_iff]
        intro heq
        refine hdvd (Nat.mod_eq_zero_of_dvd ?_)
        have hfactor : ((2 ^ k : ℕ) : ℤ) ∣ s.apply m := ⟨i, by rw [heq, mul_comm]; push_cast; rfl⟩
        cases s with
        | positive => exact Int.natCast_dvd_natCast.mp hfactor
        | negative => exact Int.natCast_dvd_natCast.mp (Int.dvd_neg.mp hfactor)

/-! ## Stored significands -/

/-- A significand and an exponent as binary64 stores them: all bits of the significand are in use,
or the exponent is the least one. -/
structure Stored (m : ℕ) (e : ℤ) : Prop where
  pos : 0 < m
  lt : m < 2 ^ 53
  le_exponent : -1074 ≤ e
  full : 2 ^ 52 ≤ m ∨ e = -1074

/-- The finite fields of a number are in the range of the format. -/
theorem stored_of_unpack {x : Float} {s : Sign} {m : ℕ} {e : ℤ} {hm : 0 < m}
    (h : x.toModel.unpack = .finite s m e hm) : Stored m e := by
  have hdecode := decode_eq x
  rw [h, decode] at hdecode
  simp only [decodeUnpacked] at hdecode
  have hfraction : x.toBits.toNat % twoPow fractionBits < 2 ^ 52 := Nat.mod_lt _ (by decide)
  split at hdecode
  · split at hdecode <;> cases hdecode
  split at hdecode
  · obtain ⟨-, rfl, rfl⟩ := Decoded.finite.inj hdecode
    exact ⟨hm, by omega, le_rfl, .inr rfl⟩
  · obtain ⟨-, rfl, rfl⟩ := Decoded.finite.inj hdecode
    have hunit : twoPow fractionBits = 2 ^ 52 := rfl
    exact ⟨hm, by omega, by simp [minExponent], .inl (by omega)⟩

/-- The value of a number with a larger exponent is larger. -/
theorem Stored.lt_of_exponent_lt {m m' : ℕ} {e e' : ℤ} (h : Stored m e) (h' : Stored m' e')
    (hlt : e < e') : (m : ℚ) * 2 ^ e < m' * 2 ^ e' := by
  have hfull : 2 ^ 52 ≤ m' := h'.full.resolve_right (by have := h.le_exponent; omega)
  calc (m : ℚ) * 2 ^ e
      < 2 ^ 53 * 2 ^ e := by
        gcongr
        exact_mod_cast h.lt
    _ = 2 ^ 52 * 2 ^ (e + 1) := by
        rw [zpow_add₀ (by norm_num)]
        ring
    _ ≤ m' * 2 ^ e' := by
        gcongr
        · exact_mod_cast hfull
        · norm_num
        · omega

/-- Stored magnitudes compare as exponents first and mantissas second. -/
theorem compare_stored {m m' : ℕ} {e e' : ℤ} (h : Stored m e) (h' : Stored m' e') :
    (compare e e').then (compare m m') = compare ((m : ℚ) * 2 ^ e) (m' * 2 ^ e') := by
  rcases lt_trichotomy e e' with hlt | rfl | hlt
  · rw [compare_lt_iff_lt.mpr hlt, compare_lt_iff_lt.mpr (h.lt_of_exponent_lt h' hlt)]
    rfl
  · have hpos : (0 : ℚ) < 2 ^ e := by positivity
    rcases lt_trichotomy m m' with hlt | rfl | hlt
    · rw [compare_eq_iff_eq.mpr rfl, compare_lt_iff_lt.mpr hlt, compare_lt_iff_lt.mpr]
      · rfl
      · gcongr
    · simp
    · rw [compare_eq_iff_eq.mpr rfl, compare_gt_iff_gt.mpr hlt, compare_gt_iff_gt.mpr]
      · rfl
      · gcongr
  · rw [compare_gt_iff_gt.mpr hlt, compare_gt_iff_gt.mpr (h'.lt_of_exponent_lt h hlt)]
    rfl

/-- An unpacked number with a stored significand stands for a rational number. -/
inductive Denotes : UnpackedFloat → ℚ → Prop
  | zero (s : Sign) : Denotes (.zero s) 0
  | positive {m : ℕ} {e : ℤ} (hm : 0 < m) : Stored m e →
    Denotes (.finite .positive m e hm) (m * 2 ^ e)
  | negative {m : ℕ} {e : ℤ} (hm : 0 < m) : Stored m e →
    Denotes (.finite .negative m e hm) (-(m * 2 ^ e))

/-- A number with a value denotes it. -/
theorem denotes_unpack {x : Float} {a : ℚ} (h : value? x = some a) :
    Denotes x.toModel.unpack a := by
  unfold value? at h
  cases hunpack : x.toModel.unpack with
  | infinity s => simp [hunpack, unpackedValue?] at h
  | notANumber => simp [hunpack, unpackedValue?] at h
  | zero s =>
    rw [hunpack] at h
    cases h
    exact .zero s
  | finite s m e hm =>
    have hstored := stored_of_unpack hunpack
    rw [hunpack] at h
    cases h
    cases s with
    | positive => exact .positive hm hstored
    | negative =>
      simp only [Sign.apply, Int.cast_neg, Int.cast_natCast, neg_mul]
      exact .negative hm hstored

/-- Negation turns a comparison round. -/
theorem compare_neg (p q : ℚ) : compare (-p) (-q) = (compare p q).swap := by
  rcases lt_trichotomy p q with hlt | rfl | hlt
  · rw [compare_lt_iff_lt.mpr hlt, compare_gt_iff_gt.mpr (neg_lt_neg hlt)]
    rfl
  · simp
  · rw [compare_gt_iff_gt.mpr hlt, compare_lt_iff_lt.mpr (neg_lt_neg hlt)]
    rfl

/-- Comparing numbers compares what they stand for. -/
theorem Denotes.compare {u v : UnpackedFloat} {a b : ℚ} (hu : Denotes u a) (hv : Denotes v b) :
    UnpackedFloat.compare u v = some (Ord.compare a b) := by
  have hpos {m : ℕ} {e : ℤ} (h : Stored m e) : (0 : ℚ) < m * 2 ^ e := by
    have := h.pos
    positivity
  have hneg {m : ℕ} {e : ℤ} (h : Stored m e) : -(m * 2 ^ e : ℚ) < 0 := neg_lt_zero.mpr (hpos h)
  cases hu with
  | zero s =>
    cases hv with
    | zero s' => rfl
    | positive _ hm' => rw [compare_lt_iff_lt.mpr (hpos hm')]; rfl
    | negative _ hm' => rw [compare_gt_iff_gt.mpr (hneg hm')]; rfl
  | positive _ hm =>
    cases hv with
    | zero s' => rw [compare_gt_iff_gt.mpr (hpos hm)]; rfl
    | positive _ hm' => rw [← compare_stored hm hm']; rfl
    | negative _ hm' => rw [compare_gt_iff_gt.mpr ((hneg hm').trans (hpos hm))]; rfl
  | negative _ hm =>
    cases hv with
    | zero s' => rw [compare_lt_iff_lt.mpr (hneg hm)]; rfl
    | positive _ hm' => rw [compare_lt_iff_lt.mpr ((hneg hm).trans (hpos hm'))]; rfl
    | negative _ hm' =>
      rw [compare_neg, ← compare_stored hm hm']; rfl

/-- One number is less than another exactly if it stands for less. -/
theorem lt_iff_value_lt {x y : Float} {a b : ℚ} (hx : value? x = some a) (hy : value? y = some b) :
    x < y ↔ a < b := by
  have hcompare := (denotes_unpack hx).compare (denotes_unpack hy)
  change Float.lt x y = true ↔ _
  change decide (UnpackedFloat.lt x.toModel.unpack y.toModel.unpack = true) = true ↔ _
  rw [decide_eq_true_iff, UnpackedFloat.lt, hcompare]
  simp [compare_lt_iff_lt]

/-- Two finite numbers are equal exactly if they stand for the same. -/
theorem beq_iff_value_eq {x y : Float} {a b : ℚ} (hx : value? x = some a) (hy : value? y = some b) :
    x == y ↔ a = b := by
  have hcompare := (denotes_unpack hx).compare (denotes_unpack hy)
  change UnpackedFloat.beq x.toModel.unpack y.toModel.unpack = true ↔ _
  rw [UnpackedFloat.beq, hcompare]
  simp

end Offside.Number
