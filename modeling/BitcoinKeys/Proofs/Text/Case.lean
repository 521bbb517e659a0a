import BitcoinKeys.Proofs.Text.Utf8
import Mathlib

/-! The lower and the upper case form of a text. Only ASCII has cases here, so no character from outside
comes into ASCII by a change of case. -/
namespace BitcoinKeys.Text

theorem toList_lower (text : String) : (lower text).toList = text.toList.map Char.toLower := by
  rw [lower, String.toList_ofList]

theorem toList_upper (text : String) : (upper text).toList = text.toList.map Char.toUpper := by
  rw [upper, String.toList_ofList]

theorem lower_of_no_upper (text : String) (h : ∀ c ∈ text.toList, c.isUpper = false) :
    lower text = text := by
  apply ext_toList
  rw [toList_lower]
  refine (List.map_congr_left fun c hc => ?_).trans (List.map_id text.toList)
  exact Char.toLower_eq_of_not_isUpper (Bool.eq_false_iff.mp (h c hc))

/-- Case folding is the same for both cases of a text. -/
theorem lower_upper (text : String) : lower (upper text) = lower text := by
  apply ext_toList
  rw [toList_lower, toList_upper, toList_lower, List.map_map]
  exact List.map_congr_left fun c _ => Char.toLower_toUpper_eq_toLower c

theorem upper_lower_of_no_lower (text : String) (h : ∀ c ∈ text.toList, c.isLower = false) :
    upper (lower text) = text := by
  apply ext_toList
  rw [toList_upper, toList_lower, List.map_map]
  refine (List.map_congr_left fun c hc => ?_).trans (List.map_id text.toList)
  rw [Function.comp_apply, Char.toUpper_toLower_eq_toUpper]
  exact Char.toUpper_eq_of_not_isLower (Bool.eq_false_iff.mp (h c hc))

theorem isUpper_of_ge {c : Char} (h : 128 ≤ c.toNat) : c.isUpper = false := by
  by_contra hupper
  simp only [Bool.not_eq_false, Char.isUpper, decide_eq_true_eq, UInt32.le_iff_toNat_le] at hupper
  exact Nat.not_lt.mpr h (Nat.lt_of_le_of_lt hupper.2 (by decide))

/-- No character outside ASCII has a lower case form in it. -/
theorem lt_128_of_toLower (c : Char) (h : c.toLower.toNat < 128) : c.toNat < 128 := by
  by_contra hfar
  rw [Char.toLower_eq_of_not_isUpper (Bool.eq_false_iff.mp (isUpper_of_ge (Nat.not_lt.mp hfar)))] at h
  exact hfar h

def lowerByte (byte : UInt8) : UInt8 := if 65 ≤ byte ∧ byte ≤ 90 then byte + 32 else byte

theorem lowerByte_of_ge {byte : UInt8} (h : 128 ≤ byte.toNat) : lowerByte byte = byte := by
  rw [lowerByte, if_neg]
  simp only [UInt8.le_iff_toNat_le, UInt8.reduceToNat]
  omega

theorem lowerByte_lt_128_iff (byte : UInt8) : (lowerByte byte).toNat < 128 ↔ byte.toNat < 128 := by
  have hall : ∀ n < 256, (lowerByte (UInt8.ofNat n)).toNat < 128 ↔ n < 128 := by
    decide +kernel
  have h := hall byte.toNat byte.toNat_lt
  rwa [UInt8.ofNat_toNat] at h

theorem map_lowerByte_utf8EncodeChar (c : Char) :
    (String.utf8EncodeChar c).map lowerByte = String.utf8EncodeChar c.toLower := by
  by_cases hc : c.toNat < 128
  · have hascii : ∀ n < 128, (Char.ofNat n).toLower.toNat < 128 ∧
        lowerByte (UInt8.ofNat n) = UInt8.ofNat (Char.ofNat n).toLower.toNat := by decide
    obtain ⟨hlower, hbyte⟩ := hascii c.toNat hc
    rw [Char.ofNat_toNat] at hlower hbyte
    rw [utf8EncodeChar_of_ascii c hc, utf8EncodeChar_of_ascii _ hlower, List.map_singleton, hbyte]
  · have hfar := Nat.not_lt.mp hc
    rw [Char.toLower_eq_of_not_isUpper (Bool.eq_false_iff.mp (isUpper_of_ge hfar))]
    refine (List.map_congr_left fun byte hbyte => ?_).trans (List.map_id _)
    exact lowerByte_of_ge (le_of_mem_utf8EncodeChar hfar byte hbyte)

/-- The bytes of characters in lower case are their bytes in lower case. -/
theorem map_lowerByte_encoding (characters : List Char) :
    (encoding characters).map lowerByte = encoding (characters.map Char.toLower) := by
  induction characters with
  | nil => rfl
  | cons c characters ih =>
    rw [encoding_cons, List.map_append, map_lowerByte_utf8EncodeChar, ih, List.map_cons, encoding_cons]

end BitcoinKeys.Text
