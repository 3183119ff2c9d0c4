import Offside.Proofs.NumberValues

/-!
# Sums of integers

Rounding loses nothing of a number that fits into the 53 bits of a significand, and packing loses
nothing of a significand whose bits are all in use. So the sum of two numbers is exact whenever it
is an integer of magnitude at most `2 ^ 53`.
-/

namespace Offside.Number

open Float.Model
open Float.Model.UnpackedFloat

/-! ## Rounding -/

/-- Shifting out zeros loses nothing. -/
theorem shiftRight_exact (c a : ℕ) :
    ExtendedMantissa.ofMantissaAndAccuracy (c * 2 ^ a) .exact >>> a =
      ExtendedMantissa.ofMantissaAndAccuracy c .exact := by
  change a.repeat ExtendedMantissa.shiftRightOne _ = _
  induction a generalizing c with
  | zero => simp [Nat.repeat]
  | succ a ih =>
    rw [Nat.repeat, pow_succ', ← mul_assoc, ih]
    simp [ExtendedMantissa.shiftRightOne, ExtendedMantissa.ofMantissaAndAccuracy]

/-- All 53 bits of a significand are in use. -/
def Full (c : ℕ) : Prop := 2 ^ 52 ≤ c ∧ c < 2 ^ 53

/-- A full significand is not zero. -/
theorem Full.pos {c : ℕ} (h : Full c) : 0 < c := Nat.lt_of_lt_of_le (by decide) h.1

/-- Multiplying by a power of two shifts the leading digit. -/
theorem log2_mul_two_pow {m : ℕ} (hm : m ≠ 0) (a : ℕ) : (m * 2 ^ a).log2 = m.log2 + a := by
  rw [Nat.log2_eq_iff (by positivity), pow_add, Nat.add_right_comm, pow_add]
  exact ⟨Nat.mul_le_mul_right _ (Nat.log2_self_le hm),
    Nat.mul_lt_mul_of_pos_right Nat.lt_log2_self (by positivity)⟩

/-- The leading digit of a full significand is the last one that fits. -/
theorem Full.log2 {c : ℕ} (h : Full c) : c.log2 = 52 := (Nat.log2_eq_iff h.pos.ne').mpr h

/-- A full significand that was scaled up is rounded back to the exponent that it came from. -/
theorem targetExponent_scaled {c : ℕ} (h : Full c) (a : ℕ) {t : ℤ} (ht : -1074 ≤ t) :
    Format.binary64.targetExponent (totalExponent (c * 2 ^ a) (t - a)) = t := by
  rw [totalExponent, log2_mul_two_pow h.pos.ne', h.log2]
  simp only [Format.targetExponent, Format.mantissaBits, Format.minExponent]
  omega

/-- Rounding a significand with zeros behind its 53 bits cuts off the zeros. -/
theorem roundWithAccuracy_scaled (s : Sign) {c : ℕ} (h : Full c) (a : ℕ) {t : ℤ}
    (ht : -1074 ≤ t) :
    roundWithAccuracy .binary64 s (c * 2 ^ a) (t - a) .exact = .finite s c t h.pos := by
  have hshift : (t - (t - a)).toNat = a := by omega
  have hexponent : t - a + a = t := by omega
  have htarget : Format.binary64.targetExponent (totalExponent c t) = t := by
    simpa using targetExponent_scaled h 0 ht
  have hkept : ExtendedMantissa.ofMantissaAndAccuracy c .exact >>> 0 =
      ExtendedMantissa.ofMantissaAndAccuracy c .exact := rfl
  have hrounded : (ExtendedMantissa.ofMantissaAndAccuracy c .exact).roundedMantissa = c := rfl
  simp only [roundWithAccuracy, shiftToTargetExponent, shiftToExponent,
    targetExponent_scaled h a ht, hshift, shiftRight_exact, hexponent, hrounded, htarget, sub_self,
    Int.toNat_zero, hkept]
  simp [ExtendedMantissa.ofMantissaAndAccuracy, h.pos.ne']

/-- Two ways to write a number as a significand and an exponent differ by a power of two. -/
theorem eq_scaled {m c : ℕ} {e t : ℤ} (h : (m : ℚ) * 2 ^ e = c * 2 ^ t) (hle : e ≤ t) :
    m = c * 2 ^ (t - e).toNat := by
  have hpow : (2 : ℚ) ^ t = 2 ^ (t - e).toNat * 2 ^ e := by
    rw [← zpow_natCast, ← zpow_add₀ (by norm_num)]
    congr 1
    omega
  rw [hpow, ← mul_assoc] at h
  exact_mod_cast mul_right_cancel₀ (by positivity) h

/-- Rounding is exact on what fits into 53 bits. -/
theorem round_exact (s : Sign) {m c : ℕ} {e t : ℤ} (hc : Full c) (ht : -1074 ≤ t)
    (h : (m : ℚ) * 2 ^ e = c * 2 ^ t) :
    UnpackedFloat.round .binary64 s m e = .finite s c t hc.pos := by
  rcases le_total e t with hle | hle
  · obtain ⟨a, rfl⟩ : ∃ a : ℕ, e = t - a := ⟨(t - e).toNat, by omega⟩
    have hm := eq_scaled h hle
    have hshift : (t - (t - a)).toNat = a := by omega
    have hnone : (t - a - t).toNat = 0 := by omega
    rw [hshift] at hm
    subst hm
    simp only [UnpackedFloat.round, targetExponent_scaled hc a ht, decreaseExponent, hnone,
      Nat.shiftLeft_zero, Nat.cast_zero, sub_zero]
    exact roundWithAccuracy_scaled s hc a ht
  · obtain ⟨b, rfl⟩ : ∃ b : ℕ, e = t + b := ⟨(e - t).toNat, by omega⟩
    have hm := eq_scaled h.symm hle
    have hshift : (t + b - t).toNat = b := by omega
    rw [hshift] at hm
    subst hm
    have hm : m ≠ 0 := fun hzero => by simpa [hzero] using hc.pos
    have hlog : m.log2 + b = 52 := (log2_mul_two_pow hm b).symm.trans hc.log2
    have htarget : Format.binary64.targetExponent (totalExponent m (t + b)) = t := by
      simp only [Format.targetExponent, totalExponent, Format.mantissaBits, Format.minExponent]
      omega
    simp only [UnpackedFloat.round, htarget, decreaseExponent, hshift, add_sub_cancel_right,
      Nat.shiftLeft_eq]
    simpa using roundWithAccuracy_scaled s hc 0 ht

/-- Every positive integer up to `2 ^ 53` fits into 53 bits. -/
theorem exists_full {n : ℕ} (hpos : 0 < n) (hle : n ≤ 2 ^ 53) :
    ∃ (c : ℕ) (t : ℤ), Full c ∧ -52 ≤ t ∧ t ≤ 1 ∧ (c : ℚ) * 2 ^ t = n := by
  rcases hle.lt_or_eq with hlt | rfl
  · have hlog : n.log2 ≤ 52 := by
      have := (Nat.log2_lt hpos.ne').mpr hlt
      omega
    refine ⟨n * 2 ^ (52 - n.log2), n.log2 - 52, ⟨?_, ?_⟩, by omega, by omega, ?_⟩
    · calc 2 ^ 52 = 2 ^ n.log2 * 2 ^ (52 - n.log2) := by rw [← pow_add]; congr 1; omega
        _ ≤ n * 2 ^ (52 - n.log2) := Nat.mul_le_mul_right _ (Nat.log2_self_le hpos.ne')
    · calc n * 2 ^ (52 - n.log2) < 2 ^ (n.log2 + 1) * 2 ^ (52 - n.log2) :=
            Nat.mul_lt_mul_of_pos_right Nat.lt_log2_self (by positivity)
        _ = 2 ^ 53 := by rw [← pow_add]; congr 1; omega
    · push_cast
      rw [mul_assoc, ← zpow_natCast, ← zpow_add₀ (by norm_num)]
      have hzero : ((52 - n.log2 : ℕ) : ℤ) + (n.log2 - 52) = 0 := by omega
      rw [hzero, zpow_zero, mul_one]
  · exact ⟨2 ^ 52, 1, ⟨le_rfl, by decide⟩, by decide, by decide, by norm_num⟩

/-- Packing loses nothing of a significand whose 53 bits are in use. -/
theorem unpack_pack (s : Sign) {c : ℕ} {t : ℤ} (hc : Full c) (ht : -1074 ≤ t) (ht' : t ≤ 971) :
    (Float.Model.pack (.finite s c t hc.pos)).unpack = .finite s c t hc.pos := by
  have hbiased : t + Format.binary64.exponentBias + (52 : ℕ) = t + 1075 := by
    simp only [Format.exponentBias]
    omega
  have hexponent : (BitVec.ofNat 11 (t + 1075).toNat).toNat = (t + 1075).toNat :=
    Nat.mod_eq_of_lt (by omega)
  have hinfinite : BitVec.ofNat 11 (t + 1075).toNat ≠ -1#11 := by
    rw [Ne, ← BitVec.toNat_inj, hexponent]
    change (t + 1075).toNat ≠ 2047
    omega
  have hleast : BitVec.ofNat 11 (t + 1075).toNat ≠ 0#11 := by
    rw [Ne, ← BitVec.toNat_inj, hexponent]
    change (t + 1075).toNat ≠ 0
    omega
  have hsignificand : (1#1 ++ BitVec.ofNat 52 c).toNat = c := by
    obtain ⟨hlow, hhigh⟩ := hc
    rw [toNat_implicit, BitVec.toNat_ofNat]
    change c % 2 ^ 52 + 2 ^ 52 = c
    omega
  have hpack : UnpackedFloat.pack .binary64 (.finite s c t hc.pos) =
      packComponents .binary64 s (BitVec.ofNat 11 (t + 1075).toNat) (BitVec.ofNat 52 c) := by
    simp only [UnpackedFloat.pack, hbiased, hc.log2]
    rw [if_neg, if_pos (show 52 + 1 = Format.binary64.mantissaBits from rfl)]
    change ¬2048 ≤ (t + 1075).toNat + 1
    omega
  change UnpackedFloat.unpack .binary64 (UnpackedFloat.pack .binary64 (.finite s c t hc.pos)) = _
  simp only [hpack, UnpackedFloat.unpack, unpackMantissa_packComponents,
    unpackExponent_packComponents, unpackSign_packComponents, Sign.ofBitVec_toBitVec,
    if_neg hinfinite, if_neg hleast, hexponent, hsignificand]
  congr 1
  simp only [Format.exponentBias]
  omega

/-! ## Addition -/

/-- Rounding and packing are exact on integers of at most 53 bits. -/
theorem value_round (s : Sign) {m n : ℕ} {e : ℤ} (h : (m : ℚ) * 2 ^ e = n) (hpos : 0 < n)
    (hle : n ≤ 2 ^ 53) :
    unpackedValue? (Float.Model.pack (UnpackedFloat.round .binary64 s m e)).unpack =
      some (s.apply n : ℚ) := by
  obtain ⟨c, t, hc, hlow, hhigh, hvalue⟩ := exists_full hpos hle
  rw [round_exact s hc (by omega) (h.trans hvalue.symm), unpack_pack s hc (by omega) (by omega)]
  cases s <;> simp [unpackedValue?, Sign.apply, hvalue]

/-- Zeros keep their sign when they are packed. -/
theorem unpack_pack_zero (s : Sign) : (Float.Model.pack (.zero s)).unpack = .zero s :=
  unpack_packedZero

/-- Normalizing an integer of at most 53 digits keeps its value. -/
theorem value_normalize {i mantissa e : ℤ} (h : (mantissa : ℚ) * 2 ^ e = i) (hle : |i| ≤ 2 ^ 53) :
    unpackedValue?
        (Float.Model.pack (UnpackedFloat.normalize .binary64 mantissa e .positive)).unpack =
      some (i : ℚ) := by
  have hpow : (0 : ℚ) < 2 ^ e := by positivity
  unfold UnpackedFloat.normalize
  rcases lt_trichotomy mantissa 0 with hlt | rfl | hlt
  · have hi : i < 0 := by
      have hneg : (mantissa : ℚ) * 2 ^ e < 0 := mul_neg_of_neg_of_pos (by exact_mod_cast hlt) hpow
      exact_mod_cast h ▸ hneg
    obtain ⟨n, rfl⟩ : ∃ n : ℕ, i = -n := ⟨(-i).toNat, by omega⟩
    obtain ⟨m, rfl⟩ : ∃ m : ℕ, mantissa = -m := ⟨(-mantissa).toNat, by omega⟩
    rw [compare_lt_iff_lt.mpr hlt]
    simpa [Sign.apply] using value_round .negative (m := m) (n := n) (by simpa using h) (by omega)
      (by simpa using hle)
  · obtain rfl : i = 0 := by simpa using h.symm
    rw [compare_eq_iff_eq.mpr rfl, unpack_pack_zero]
    simp [unpackedValue?]
  · have hi : 0 < i := by
      have hpos : 0 < (mantissa : ℚ) * 2 ^ e := mul_pos (by exact_mod_cast hlt) hpow
      exact_mod_cast h ▸ hpos
    lift i to ℕ using hi.le
    lift mantissa to ℕ using hlt.le
    rw [compare_gt_iff_gt.mpr hlt]
    simpa [Sign.apply] using value_round .positive (m := mantissa) (n := i) (by simpa using h)
      (by omega) (by simpa using hle)

/-- Shifting digits to a smaller exponent keeps the value. -/
theorem value_shiftLeft (s : Sign) (m : ℕ) {e k : ℤ} (hk : k ≤ e) :
    (s.apply (m <<< (e - k).toNat : ℕ) : ℚ) * 2 ^ k = s.apply m * 2 ^ e := by
  have hpow : (2 : ℚ) ^ e = 2 ^ (e - k).toNat * 2 ^ k := by
    rw [← zpow_natCast, ← zpow_add₀ (by norm_num)]
    congr 1
    omega
  cases s <;> simp [Sign.apply, Nat.shiftLeft_eq, hpow, mul_assoc]

/-- Packing what was unpacked gives the number back. -/
theorem pack_unpack (x : Float) : Float.Model.pack x.toModel.unpack = x.toModel := by
  have h := pack_unpack_of_valid x.toModel.valid
  rw [Float.Model.mk.injEq]
  exact congrArg UInt64.ofBitVec h

/-- The sum of two numbers is exact if it is an integer of magnitude at most `2 ^ 53`. -/
theorem value_add {x y : Float} {a b : ℚ} {i : ℤ} (hx : value? x = some a) (hy : value? y = some b)
    (hsum : a + b = i) (hle : |i| ≤ 2 ^ 53) : value? (x + y) = some (i : ℚ) := by
  change unpackedValue?
    (Float.Model.pack (UnpackedFloat.add .binary64 x.toModel.unpack y.toModel.unpack)).unpack = _
  have hkeptx : unpackedValue? (Float.Model.pack x.toModel.unpack).unpack = some a := by
    rwa [pack_unpack]
  have hkepty : unpackedValue? (Float.Model.pack y.toModel.unpack).unpack = some b := by
    rwa [pack_unpack]
  unfold value? at hx hy
  cases hux : x.toModel.unpack with
  | infinity s => simp [hux, unpackedValue?] at hx
  | notANumber => simp [hux, unpackedValue?] at hx
  | zero s =>
    obtain rfl : 0 = a := by simpa [hux, unpackedValue?] using hx
    cases huy : y.toModel.unpack with
    | infinity s' => simp [huy, unpackedValue?] at hy
    | notANumber => simp [huy, unpackedValue?] at hy
    | zero s' =>
      obtain rfl : 0 = b := by simpa [huy, unpackedValue?] using hy
      rw [← hsum, UnpackedFloat.add]
      split <;> rw [unpack_pack_zero] <;> simp [unpackedValue?]
    | finite s' m' e' hm' =>
      rw [← hsum, zero_add, ← hkepty, huy]
      rfl
  | finite s m e hm =>
    cases huy : y.toModel.unpack with
    | infinity s' => simp [huy, unpackedValue?] at hy
    | notANumber => simp [huy, unpackedValue?] at hy
    | zero s' =>
      obtain rfl : 0 = b := by simpa [huy, unpackedValue?] using hy
      rw [← hsum, add_zero, ← hkeptx, hux]
      rfl
    | finite s' m' e' hm' =>
      rw [hux] at hx
      rw [huy] at hy
      cases hx
      cases hy
      refine value_normalize ?_ hle
      rw [← hsum, Int.cast_add, add_mul, value_shiftLeft s m (min_le_left e e'),
        value_shiftLeft s' m' (min_le_right e e')]

end Offside.Number
