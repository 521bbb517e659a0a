import BitcoinKeys.PrivateKey
import BitcoinKeys.Proofs.Decimal
import BitcoinKeys.Proofs.Except
import BitcoinKeys.Proofs.Hex

namespace BitcoinKeys.PrivateKey

theorem ofScalar_eq_ok_iff (scalar : Bytes) (compressed : Bool) (key : PrivateKey) :
    ofScalar scalar compressed = .ok key ↔
      key.scalar.toBytes = scalar ∧ key.compressed = compressed := by
  rw [ofScalar, map_eq_ok_iff]
  constructor
  · rintro ⟨bytes, hbytes, rfl⟩
    by_cases hl : scalar.length = 32
    · rw [FixedBytes.ofBytes_of_length scalar hl] at hbytes
      cases hbytes
      exact ⟨rfl, rfl⟩
    · rw [FixedBytes.ofBytes, dif_neg hl] at hbytes
      cases hbytes
  · rintro ⟨rfl, rfl⟩
    exact ⟨key.scalar, FixedBytes.ofBytes_of_length _ key.scalar.length_eq, rfl⟩

theorem toRaw_uncompressed (scalar : FixedBytes 32) : toRaw ⟨scalar, false⟩ = scalar.toBytes := rfl

theorem toRaw_compressed (scalar : FixedBytes 32) :
    toRaw ⟨scalar, true⟩ = scalar.toBytes ++ [compressedMarker] := rfl

theorem length_toRaw (key : PrivateKey) : key.toRaw.length = if key.compressed then 33 else 32 := by
  have hl := key.scalar.length_eq
  obtain ⟨scalar, compressed⟩ := key
  cases compressed
  · exact hl
  · rw [toRaw_compressed, List.length_append, hl]
    rfl

theorem ofScalar_toBytes (scalar : FixedBytes 32) (compressed : Bool) :
    ofScalar scalar.toBytes compressed = .ok ⟨scalar, compressed⟩ :=
  (ofScalar_eq_ok_iff ..).mpr ⟨rfl, rfl⟩

/-- A byte string that is one byte longer than a scalar is a scalar with a marker. -/
theorem exists_marked (bytes : Bytes) (h : bytes.length = 33) :
    ∃ (scalar : FixedBytes 32) (marker : UInt8), bytes = scalar.toBytes ++ [marker] := by
  have hne : bytes ≠ [] := List.ne_nil_of_length_eq_add_one h
  have hscalar : bytes.dropLast.length = 32 := by rw [List.length_dropLast, h]
  exact ⟨⟨bytes.dropLast, hscalar⟩, bytes.getLast hne, (List.dropLast_append_getLast hne).symm⟩

theorem length_marked (scalar : FixedBytes 32) (marker : UInt8) :
    (scalar.toBytes ++ [marker]).length = 33 := by
  rw [List.length_append, scalar.length_eq, List.length_singleton]

theorem getElem?_marked (scalar : FixedBytes 32) (marker : UInt8) :
    (scalar.toBytes ++ [marker])[32]? = some marker := by
  rw [List.getElem?_append_right scalar.length_eq.le, scalar.length_eq]
  rfl

theorem getD_marked (scalar : FixedBytes 32) (marker : UInt8) :
    (scalar.toBytes ++ [marker]).getD 32 0 = marker := by
  rw [List.getD_eq_getElem?_getD, getElem?_marked, Option.getD_some]

theorem marker_cases {marker : UInt8} (h : marker ≤ 1) :
    marker = uncompressedMarker ∨ marker = compressedMarker := by
  have hn : marker.toNat ≤ 1 := UInt8.le_iff_toNat_le.mp h
  rcases Nat.le_one_iff_eq_zero_or_eq_one.mp hn with hz | hz
  · exact Or.inl (UInt8.toNat_inj.mp hz)
  · exact Or.inr (UInt8.toNat_inj.mp hz)

theorem take_marked (scalar : FixedBytes 32) (marker : UInt8) :
    (scalar.toBytes ++ [marker]).take 32 = scalar.toBytes := List.take_left' scalar.length_eq

theorem ofHexBytes_scalar (scalar : FixedBytes 32) :
    ofHexBytes scalar.toBytes = .ok ⟨scalar, false⟩ := by
  rw [ofHexBytes]
  simp only [scalar.length_eq, if_true]
  exact ofScalar_toBytes scalar false

/-- In hex the compressed marker is the only one. -/
theorem ofHexBytes_marked (scalar : FixedBytes 32) (marker : UInt8) :
    ofHexBytes (scalar.toBytes ++ [marker]) =
      if marker = compressedMarker then .ok ⟨scalar, true⟩
      else .error (.invalidFormat (.hexCompressionMarker marker)) := by
  rw [ofHexBytes]
  simp only [length_marked, getD_marked, take_marked, ofScalar_toBytes]
  rfl

theorem ofHex_scalar (text : Bytes) (hl : text.length = 64)
    (h : ∀ byte ∈ text, Hex.isDigit byte = true) :
    ofHex (Text.ofAscii text) = .ok ⟨.ofNat 32 (Hex.number text), false⟩ := by
  rw [ofHex, Hex.decode_of_digits 32 text hl h]
  exact ofHexBytes_scalar (.ofNat 32 (Hex.number text))

/-- The last two digits are the marker. -/
theorem ofHex_marked (text : Bytes) (hl : text.length = 66)
    (h : ∀ byte ∈ text, Hex.isDigit byte = true) :
    ofHex (Text.ofAscii text) =
      if Hex.number (text.drop 64) = 1 then .ok ⟨.ofNat 32 (Hex.number (text.take 64)), true⟩
      else .error (.invalidFormat (.hexCompressionMarker (.ofNat (Hex.number (text.drop 64))))) := by
  have hlast : (text.drop 64).length = 2 := by rw [List.length_drop, hl]
  have hlt : Hex.number (text.drop 64) < 256 := Hex.number_lt 1 _ hlast
  have hnumber : Hex.number text =
      Hex.number (text.take 64) * 256 + Hex.number (text.drop 64) := by
    conv_lhs => rw [← List.take_append_drop 64 text]
    rw [Hex.number_append, hlast]
    rfl
  have hdecode := Hex.decode_of_digits 33 text hl h
  -- from here on only the numbers matter
  generalize Hex.number (text.take 64) = scalar at *
  generalize Hex.number (text.drop 64) = marker at *
  have hbytes : Bytes.ofNat 33 (scalar * 256 + marker) =
      (FixedBytes.ofNat 32 scalar).toBytes ++ [UInt8.ofNat marker] := by
    have hhigh : (scalar * 256 + marker) / 256 = scalar := by omega
    have hlow : (scalar * 256 + marker) % 256 = marker := by omega
    rw [Bytes.ofNat_succ, hhigh, hlow]
    rfl
  have hone : UInt8.ofNat marker = compressedMarker ↔ marker = 1 := by
    rw [← UInt8.toNat_inj, UInt8.toNat_ofNat_of_lt' hlt]
    rfl
  rw [ofHex, hdecode, hnumber, hbytes]
  refine (ofHexBytes_marked (.ofNat 32 scalar) (.ofNat marker)).trans ?_
  simp only [hone]

theorem ofDecimal_of_digits (text : String) (hne : text.toList ≠ [])
    (h : ∀ c ∈ text.toList, c.isDigit = true) :
    ofDecimal text =
      if Decimal.number text < 2 ^ 256 then .ok ⟨.ofNat 32 (Decimal.number text), true⟩
      else .error (.invalidFormat (.decimalTooWide 32)) := by
  have hpow : 256 ^ 32 = 2 ^ 256 := by norm_num
  rw [ofDecimal, Decimal.decode_of_digits 32 text (by decide) hne h, hpow]
  split_ifs
  · rfl
  · rfl

theorem ofRaw_scalar (scalar : FixedBytes 32) : ofRaw scalar.toBytes = .ok ⟨scalar, false⟩ := by
  rw [ofRaw]
  simp only [scalar.length_eq, if_true]
  exact ofScalar_toBytes scalar false

/-- In raw form both markers are known. -/
theorem ofRaw_marked (scalar : FixedBytes 32) (marker : UInt8) :
    ofRaw (scalar.toBytes ++ [marker]) =
      if marker = compressedMarker then .ok ⟨scalar, true⟩
      else if marker = uncompressedMarker then .ok ⟨scalar, false⟩
      else .error (.invalidFormat (.rawCompressionFlag marker)) := by
  rw [ofRaw]
  simp only [length_marked, getD_marked, take_marked, ofScalar_toBytes]
  rfl

/-- The hex text tells the scalar and the flag. -/
theorem ofHex_toHex (key : PrivateKey) : ofHex key.toHex = .ok key := by
  rw [ofHex, toHex, Hex.decode_encode]
  obtain ⟨scalar, compressed⟩ := key
  cases compressed
  · exact ofHexBytes_scalar scalar
  · exact (ofHexBytes_marked scalar compressedMarker).trans (if_pos rfl)

theorem ofRaw_toRaw (key : PrivateKey) : ofRaw key.toRaw = .ok key := by
  obtain ⟨scalar, compressed⟩ := key
  cases compressed
  · exact ofRaw_scalar scalar
  · exact (ofRaw_marked scalar compressedMarker).trans (if_pos rfl)

/-- The numeral tells the scalar but not the flag. -/
theorem ofDecimal_toDecimal (key : PrivateKey) : ofDecimal key.toDecimal = .ok key.compress := by
  have hlt : key.scalar.toBytes.toNat < 2 ^ 256 :=
    Nat.lt_of_lt_of_eq key.scalar.toNat_lt (by norm_num)
  have hback : FixedBytes.ofNat 32 key.scalar.toBytes.toNat = key.scalar := key.scalar.ofNat_toNat
  rw [toDecimal, ofDecimal_of_digits _ (Decimal.encode_ne_nil _) (Decimal.isDigit_encode _),
    Decimal.number_encode, if_pos hlt, hback]
  rfl

end BitcoinKeys.PrivateKey
