import BitcoinKeys.Decimal
import BitcoinKeys.Proofs.Radix

namespace BitcoinKeys.Decimal

def number (text : String) : Nat := Radix.value 10 (text.toList.map digitValue)

/-- The number of bytes is the least that the number fits in. -/
theorem byteWidth_le_iff (width n : Nat) (hw : 0 < width) :
    byteWidth n ≤ width ↔ n < 256 ^ width := by
  rw [byteWidth, max_le_iff, ← Radix.length_digits_le_iff 256 width n (by decide), Radix.digits,
    List.length_reverse]
  exact and_iff_right hw

theorem decode_of_digits (width : Nat) (text : String) (hw : 0 < width) (hne : text.toList ≠ [])
    (hd : ∀ c ∈ text.toList, c.isDigit = true) :
    decode width text =
      if number text < 256 ^ width then .ok (FixedBytes.ofNat width (number text))
      else .error (.invalidFormat (.decimalTooWide width)) := by
  have hdigits : ¬ (text.toList = [] ∨ ¬ text.toList.all Char.isDigit) := by
    rw [List.all_eq_true.mpr hd]
    simpa using hne
  have hwide : width < byteWidth (number text) ↔ ¬ number text < 256 ^ width := by
    rw [← byteWidth_le_iff width _ hw, Nat.not_le]
  rw [number] at hwide ⊢
  rw [decode]
  simp only [hdigits, if_false, hwide, ite_not]

def numeral (n : Nat) : List Nat := if n = 0 then [0] else Radix.digits 10 n

theorem digitValue_digit : ∀ v < 10, digitValue (digit v) = v := by decide

theorem digitValue_lt {c : Char} (h : c.isDigit = true) : digitValue c < 10 := by
  rw [Char.isDigit, Bool.and_eq_true, decide_eq_true_iff, decide_eq_true_iff,
    UInt32.le_iff_toNat_le] at h
  have hn : c.toNat ≤ 57 := h.2
  rw [digitValue]
  omega

theorem lt_128_of_isDigit {c : Char} (h : c.isDigit = true) : c.toNat < 128 := by
  have hlt := digitValue_lt h
  rw [digitValue] at hlt
  omega

theorem isDigit_digit : ∀ v < 10, (digit v).isDigit = true := by decide

theorem numeral_lt (n : Nat) : ∀ d ∈ numeral n, d < 10 := by
  intro d hd
  rw [numeral] at hd
  split_ifs at hd
  · rw [List.mem_singleton.mp hd]
    decide
  · exact Radix.digits_lt 10 n (by decide) d hd

theorem value_numeral (n : Nat) : Radix.value 10 (numeral n) = n := by
  rw [numeral]
  split_ifs with h
  · rw [h, Radix.value_singleton]
  · exact Radix.value_digits 10 n (by decide)

theorem numeral_ne_nil (n : Nat) : numeral n ≠ [] := by
  intro h
  have hvalue := value_numeral n
  rw [h, Radix.value_nil] at hvalue
  rw [← hvalue] at h
  exact List.cons_ne_nil 0 [] h

theorem map_digitValue_numeral (n : Nat) : ((numeral n).map digit).map digitValue = numeral n := by
  rw [List.map_map]
  refine (List.map_congr_left fun d hd => ?_).trans (List.map_id _)
  exact digitValue_digit d (numeral_lt _ d hd)

theorem toList_encode (bytes : Bytes) : (encode bytes).toList = (numeral bytes.toNat).map digit := by
  rw [encode, numeral]
  split_ifs
  · rfl
  · exact String.toList_ofList

theorem isDigit_encode (bytes : Bytes) : ∀ c ∈ (encode bytes).toList, c.isDigit = true := by
  intro c hc
  rw [toList_encode] at hc
  obtain ⟨d, hd, rfl⟩ := List.mem_map.mp hc
  exact isDigit_digit d (numeral_lt _ d hd)

theorem encode_ne_nil (bytes : Bytes) : (encode bytes).toList ≠ [] := by
  rw [toList_encode]
  exact mt List.map_eq_nil_iff.mp (numeral_ne_nil _)

theorem number_encode (bytes : Bytes) : number (encode bytes) = bytes.toNat := by
  rw [number, toList_encode, map_digitValue_numeral, value_numeral]

end BitcoinKeys.Decimal
