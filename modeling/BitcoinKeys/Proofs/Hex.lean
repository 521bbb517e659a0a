import BitcoinKeys.Hex
import BitcoinKeys.Proofs.Bytes
import BitcoinKeys.Proofs.Text

namespace BitcoinKeys.Hex

def halves (bytes : Bytes) : List Nat :=
  bytes.flatMap fun byte => [byte.toNat / 16, byte.toNat % 16]

def number (text : Bytes) : Nat := Radix.value 16 (text.map fun byte => (digitValue? byte).getD 0)

theorem number_append (high low : Bytes) :
    number (high ++ low) = number high * 16 ^ low.length + number low := by
  rw [number, List.map_append, Radix.value_append, List.length_map]
  rfl

theorem halves_cons (byte : UInt8) (bytes : Bytes) :
    halves (byte :: bytes) = byte.toNat / 16 :: byte.toNat % 16 :: halves bytes := rfl

theorem length_halves (bytes : Bytes) : (halves bytes).length = 2 * bytes.length := by
  induction bytes with
  | nil => rfl
  | cons byte bytes ih =>
    rw [halves_cons, List.length_cons, List.length_cons, List.length_cons, ih]
    omega

theorem halves_lt (bytes : Bytes) : ∀ d ∈ halves bytes, d < 16 := by
  intro d hd
  obtain ⟨byte, _, hd⟩ := List.mem_flatMap.mp hd
  have hbyte := byte.toNat_lt
  rcases List.mem_pair.mp hd with rfl | rfl
  · omega
  · omega

theorem value_halves (bytes : Bytes) : Radix.value 16 (halves bytes) = bytes.toNat := by
  induction bytes with
  | nil => rfl
  | cons byte bytes ih =>
    have hbase : 16 ^ (2 * bytes.length) = 256 ^ bytes.length := pow_mul 16 2 bytes.length
    have hbyte : byte.toNat = 16 * (byte.toNat / 16) + byte.toNat % 16 := (Nat.div_add_mod ..).symm
    rw [halves_cons, Radix.value_cons, Radix.value_cons, ih, List.length_cons, length_halves, pow_succ,
      hbase, Bytes.toNat_cons]
    conv_rhs => rw [hbyte]
    ring

/-- Digits are the halves of the bytes of their number. -/
theorem halves_ofNat (width : Nat) (ds : List Nat) (hl : ds.length = 2 * width)
    (h : ∀ d ∈ ds, d < 16) : halves (Bytes.ofNat width (Radix.value 16 ds)) = ds := by
  have hbase : 16 ^ ds.length = 256 ^ width := by rw [hl]; exact pow_mul 16 2 width
  have hlt : Radix.value 16 ds < 256 ^ width := hbase ▸ Radix.value_lt 16 (by decide) ds h
  -- two lists of as many digits with the same number are the same
  refine Radix.value_injective_of_length 16 (by decide) _ _ ?_ (halves_lt _) h ?_
  · rw [length_halves, Bytes.length_ofNat, hl]
  · rw [value_halves, Bytes.toNat_ofNat, Nat.mod_eq_of_lt hlt]

/-- The digits in ASCII, decimal ones first. -/
theorem isDigit_iff (byte : UInt8) :
    isDigit byte = true ↔
      (48 ≤ byte ∧ byte ≤ 57) ∨ (97 ≤ byte ∧ byte ≤ 102) ∨ (65 ≤ byte ∧ byte ≤ 70) := by
  rw [isDigit, digitValue?]
  split_ifs with hdecimal hlower hupper
  · exact iff_of_true rfl (Or.inl hdecimal)
  · exact iff_of_true rfl (Or.inr (Or.inl hlower))
  · exact iff_of_true rfl (Or.inr (Or.inr hupper))
  · exact iff_of_false Bool.false_ne_true (not_or.mpr ⟨hdecimal, not_or.mpr ⟨hlower, hupper⟩⟩)

theorem digitValue?_lt {byte : UInt8} {v : Nat} (h : digitValue? byte = some v) : v < 16 := by
  simp only [digitValue?, UInt8.le_iff_toNat_le, UInt8.reduceToNat] at h
  split_ifs at h <;> cases h <;> omega

theorem values_lt (text : Bytes) : ∀ d ∈ text.map fun byte => (digitValue? byte).getD 0, d < 16 := by
  intro d hd
  obtain ⟨byte, _, rfl⟩ := List.mem_map.mp hd
  cases hv : digitValue? byte with
  | none => exact Nat.zero_lt_succ 15
  | some v => exact digitValue?_lt hv

theorem number_lt (width : Nat) (text : Bytes) (hl : text.length = 2 * width) :
    number text < 256 ^ width := by
  have hbase : 16 ^ text.length = 256 ^ width := by rw [hl]; exact pow_mul 16 2 width
  have hlt := Radix.value_lt 16 (by decide) _ (values_lt text)
  rw [List.length_map, hbase] at hlt
  exact hlt

theorem lt_128_of_isDigit {byte : UInt8} (h : isDigit byte = true) : byte < 128 := by
  have hrange := (isDigit_iff byte).mp h
  simp only [UInt8.le_iff_toNat_le, UInt8.lt_iff_toNat_lt, UInt8.reduceToNat] at hrange ⊢
  omega

/-- Digits with the values of the digits of a byte string are read as that byte string. -/
theorem decodePairs_of_halves (bytes text : Bytes)
    (h : text.map digitValue? = (halves bytes).map some) : decodePairs text = .ok bytes := by
  induction bytes generalizing text with
  | nil =>
    rw [List.map_eq_nil_iff.mp h]
    rfl
  | cons byte bytes ih =>
    rw [halves_cons, List.map_cons, List.map_cons] at h
    obtain ⟨high, text, rfl, hhigh, h⟩ := List.map_eq_cons_iff.mp h
    obtain ⟨low, text, rfl, hlow, h⟩ := List.map_eq_cons_iff.mp h
    have hbyte : UInt8.ofNat (16 * (byte.toNat / 16) + byte.toNat % 16) = byte := by
      rw [Nat.div_add_mod, UInt8.ofNat_toNat]
    rw [decodePairs, digitValue, digitValue, hhigh, hlow, ih text h]
    exact congrArg (fun b => Except.ok (b :: bytes)) hbyte

/-- An even number of digits is read as the bytes of their number. -/
theorem decode_of_digits (width : Nat) (text : Bytes) (hl : text.length = 2 * width)
    (h : ∀ byte ∈ text, isDigit byte = true) :
    decode (Text.ofAscii text) = .ok (Bytes.ofNat width (number text)) := by
  have hvalues : text.map digitValue? =
      (text.map fun byte => (digitValue? byte).getD 0).map some := by
    rw [List.map_map]
    refine List.map_congr_left fun byte hb => ?_
    obtain ⟨v, hv⟩ := Option.isSome_iff_exists.mp (h byte hb)
    rw [Function.comp_apply, hv, Option.getD_some]
  have heven : ¬ text.length % 2 ≠ 0 := by omega
  have hhalves := halves_ofNat width _ (by rw [List.length_map, hl]) (values_lt text)
  rw [decode, Text.utf8_ofAscii text fun byte hb => lt_128_of_isDigit (h byte hb), decodeAscii,
    if_neg heven]
  refine decodePairs_of_halves _ text ?_
  rw [number, hhalves, hvalues]

theorem digitValue?_digit : ∀ v < 16, digitValue? (UInt8.ofNat (digit v).toNat) = some v := by decide

theorem digit_lt_128 : ∀ v < 16, (digit v).toNat < 128 := by decide

theorem toList_encode (bytes : Bytes) : (encode bytes).toList = (halves bytes).map digit := by
  rw [encode, String.toList_ofList, halves, List.map_flatMap]
  rfl

theorem length_toList_encode (bytes : Bytes) : (encode bytes).toList.length = 2 * bytes.length := by
  rw [toList_encode, List.length_map, length_halves]

theorem toList_encode_append (front back : Bytes) :
    (encode (front ++ back)).toList = (encode front).toList ++ (encode back).toList := by
  rw [encode, encode, encode, String.toList_ofList, String.toList_ofList, String.toList_ofList,
    List.flatMap_append]

theorem exists_digit_of_mem_encode {bytes : Bytes} {c : Char} (hc : c ∈ (encode bytes).toList) :
    ∃ v < 16, digit v = c := by
  rw [toList_encode] at hc
  obtain ⟨v, hv, rfl⟩ := List.mem_map.mp hc
  exact ⟨v, halves_lt bytes v hv, rfl⟩

theorem newline_notMem_encode (bytes : Bytes) : '\n' ∉ (encode bytes).toList := by
  have hdigit : ∀ v < 16, digit v ≠ '\n' := by decide
  intro hc
  obtain ⟨v, hv, heq⟩ := exists_digit_of_mem_encode hc
  exact hdigit v hv heq

theorem isAscii_encode (bytes : Bytes) : Text.IsAscii (encode bytes).toList := by
  intro c hc
  obtain ⟨v, hv, rfl⟩ := exists_digit_of_mem_encode hc
  exact digit_lt_128 v hv

/-- The digits that are written have the values of the halves of the bytes. -/
theorem map_digitValue?_encode (bytes : Bytes) :
    (Text.utf8 (encode bytes)).map digitValue? = (halves bytes).map some := by
  rw [Text.utf8_of_ascii _ (isAscii_encode bytes), toList_encode, List.map_map, List.map_map]
  exact List.map_congr_left fun d hd => digitValue?_digit d (halves_lt bytes d hd)

theorem length_utf8_encode (bytes : Bytes) : (Text.utf8 (encode bytes)).length = 2 * bytes.length := by
  have hl := congrArg List.length (map_digitValue?_encode bytes)
  rwa [List.length_map, List.length_map, length_halves] at hl

theorem isDigit_utf8_encode (bytes : Bytes) :
    ∀ byte ∈ Text.utf8 (encode bytes), isDigit byte = true := by
  intro byte hb
  have hmem := List.mem_map_of_mem (f := digitValue?) hb
  rw [map_digitValue?_encode] at hmem
  obtain ⟨d, -, hd⟩ := List.mem_map.mp hmem
  rw [isDigit, ← hd, Option.isSome_some]

/-- Every byte string is read back. -/
theorem decode_encode (bytes : Bytes) : decode (encode bytes) = .ok bytes := by
  have heven : ¬ (Text.utf8 (encode bytes)).length % 2 ≠ 0 := by
    rw [length_utf8_encode]
    omega
  rw [decode, decodeAscii, if_neg heven]
  exact decodePairs_of_halves bytes _ (map_digitValue?_encode bytes)

end BitcoinKeys.Hex
