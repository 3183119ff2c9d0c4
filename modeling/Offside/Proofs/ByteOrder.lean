import Mathlib.Data.List.Basic
import Offside.Text.Names

/-!
# The order of bytes

Texts are compared character by character, and encoded texts byte by byte. The encoding keeps the
order: the first byte of a longer code is the larger one, and codes of one length hold the digits of
the character's number from the most significant one on. So sorted names are sorted in both senses.
-/

namespace Offside.Text

/-- The UTF-8 encoding of a text. -/
def bytes (s : String) : List UInt8 := s.toUTF8.data.toList

/-- A text is encoded character by character. -/
theorem bytes_eq (s : String) : bytes s = s.toList.flatMap String.utf8EncodeChar := by
  rw [bytes, String.toUTF8_eq_toByteArray, ← String.utf8Encode_toList, List.utf8Encode]
  simp

/-- Of two numbers the smaller one has the smaller quotient, or the same quotient and the smaller
remainder. -/
theorem div_lt_or_mod_lt {v w : Nat} (h : v < w) (n : Nat) :
    v / n < w / n ∨ v / n = w / n ∧ v % n < w % n := by
  rcases Nat.lt_or_ge (v / n) (w / n) with hlt | hge
  · exact .inl hlt
  · have heq := Nat.le_antisymm (Nat.div_le_div_right (Nat.le_of_lt h)) hge
    have hv := Nat.div_add_mod v n
    have hw := Nat.div_add_mod w n
    rw [heq] at hv
    exact .inr ⟨heq, by omega⟩

/-- The code of the smaller character is smaller, whatever follows the two codes. -/
theorem utf8EncodeChar_lt {c d : Char} (h : c < d) (xs ys : List UInt8) :
    String.utf8EncodeChar c ++ xs < String.utf8EncodeChar d ++ ys := by
  have hlt : c.val.toNat < d.val.toNat := h
  have hbound : d.val.toNat < 0x110000 := by
    have hvalid := d.valid
    simp only [UInt32.isValidChar, Nat.isValidChar] at hvalid
    omega
  unfold String.utf8EncodeChar
  simp only
  generalize c.val.toNat = v at *
  generalize d.val.toNat = w at *
  -- The digits of the two numbers, read off one by one from the most significant one on.
  have hlast := div_lt_or_mod_lt hlt 64
  have hv := Nat.div_div_eq_div_mul v 4096 64
  have hw := Nat.div_div_eq_div_mul w 4096 64
  split_ifs <;>
    (simp only [List.cons_append, List.nil_append, List.cons_lt_cons_iff, UInt8.lt_iff_toNat_lt,
        ← UInt8.toNat_inj, UInt8.toNat_ofNat']
     simp (disch := omega) only [Nat.mod_eq_of_lt]
     omega)

/-- The encoding of the smaller text is smaller. -/
theorem bytes_lt {s t : String} (h : s < t) : bytes s < bytes t := by
  have hchars : List.Lex (· < ·) s.toList t.toList := String.lt_iff.mp h
  rw [bytes_eq, bytes_eq]
  generalize s.toList = cs at hchars
  generalize t.toList = ds at hchars
  induction hchars with
  | @nil d ds =>
    have hcode : String.utf8EncodeChar d ≠ [] :=
      List.ne_nil_of_length_pos (String.length_utf8EncodeChar d ▸ d.utf8Size_pos)
    obtain ⟨b, bs, hcons⟩ := List.exists_cons_of_ne_nil hcode
    rw [List.flatMap_cons, hcons]
    exact List.nil_lt_cons ..
  | rel hcd => exact utf8EncodeChar_lt hcd _ _
  | cons _ ih => exact List.append_left_lt ih

end Offside.Text
