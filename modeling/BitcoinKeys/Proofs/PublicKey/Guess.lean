import BitcoinKeys.Proofs.KeyGuess.Recovery
import BitcoinKeys.Proofs.PublicKey.Derivation

/-!
Guessing a public key from its hex text. The rules for private keys come first, so the text comes back
as the key unless it is a decimal numeral or ends in the marker of a compressed private key. What the
rules take and then refuse, a marker of another value or a numeral above the scalars, does no harm.
-/
namespace BitcoinKeys.PublicKey

open KeyGuess (DecimalText HexText textData)
open Text (dropFinalNewline utf8)

section

variable {data : Bytes}

theorem guess_of_certain {found : KeyGuess} (hread : KeyGuess.ofData data = .ok found)
    (hcertain : isCertainFormat found.format = true) : guess data = derive found.key := by
  simp only [guess, hread, hcertain, if_true]

theorem exists_guess_of_certain {found : KeyGuess} (hread : KeyGuess.ofData data = .ok found)
    (hcertain : isCertainFormat found.format = true)
    (hscalar : Curve.isScalar found.key.scalar.toNat = true) :
    ∃ publicKey, derive found.key = .ok publicKey ∧ guess data = .ok publicKey := by
  obtain ⟨publicKey, hderived⟩ := exists_derive hscalar
  exact ⟨publicKey, hderived, (guess_of_certain hread hcertain).trans hderived⟩

/-- A serialized point is found if no certain format comes before it. -/
theorem guess_of_point {key : PublicKey}
    (hpoint : ofHexAscii (dropFinalNewline data) = .ok key)
    (huncertain : ∀ found, KeyGuess.ofData data = .ok found → isCertainFormat found.format = false) :
    guess data = .ok key := by
  cases hread : KeyGuess.ofData data with
  | error fault => simp only [guess, hread, hpoint]
  | ok found => simp only [guess, hread, huncertain found hread, hpoint, Bool.false_eq_true, if_false]

end

def AllDigits (text : String) : Prop := ∀ c ∈ text.toList, c.isDigit = true

def EndsInMarker (text : String) : Prop := ['0', '1'] <:+ text.toList

theorem digit_injOn : ∀ v < 16, ∀ w < 16, Hex.digit v = Hex.digit w → v = w := by decide

theorem endsInMarker_encode_iff (front : Bytes) (marker : UInt8) :
    EndsInMarker (Hex.encode (front ++ [marker])) ↔ marker = PrivateKey.compressedMarker := by
  have hdigits : (Hex.encode [marker]).toList = Hex.byteDigits marker := by
    rw [Hex.encode, String.toList_ofList, List.flatMap_singleton]
  rw [EndsInMarker, Hex.toList_encode_append, hdigits]
  constructor
  · intro hsuffix
    -- The two digits lie in the last byte, and that byte has no more than two.
    have hwhole : ['0', '1'] <:+ Hex.byteDigits marker :=
      List.suffix_of_suffix_length_le hsuffix (List.suffix_append ..) le_rfl
    have hsame : [Hex.digit 0, Hex.digit 1] = Hex.byteDigits marker := hwhole.eq_of_length rfl
    rw [Hex.byteDigits, List.cons.injEq, List.cons.injEq] at hsame
    have hbelow := marker.toNat_lt
    have hhigh := digit_injOn _ (by decide) _ (by omega) hsame.1
    have hlow := digit_injOn _ (by decide) _ (by omega) hsame.2.1
    apply UInt8.toNat_inj.mp
    change marker.toNat = 1
    omega
  · rintro rfl
    exact List.suffix_append ..

variable (key : PublicKey)

theorem exists_toList_toHex :
    ∃ form rest, key.toHex.toList = '0' :: form :: rest ∧
      if key.compressed then (form = '2' ∨ form = '3') ∧ rest.length = 64
      else form = '4' ∧ rest.length = 128 := by
  obtain ⟨p, compressed⟩ := key
  cases compressed
  · have hlength : (Hex.encode (coordinateBytes p.x ++ coordinateBytes p.y)).toList.length = 128 := by
      rw [Hex.length_toList_encode, List.length_append, length_coordinateBytes,
        length_coordinateBytes]
    exact ⟨'4', _, Hex.toList_encode_append [4] _, rfl, hlength⟩
  · have hlength : (Hex.encode (coordinateBytes p.x)).toList.length = 64 := by
      rw [Hex.length_toList_encode, length_coordinateBytes]
    cases hodd : p.y.isOdd
    · refine ⟨'2', _, ?_, Or.inl rfl, hlength⟩
      rw [toHex, toBytes_short, hodd]
      exact Hex.toList_encode_append [2] _
    · refine ⟨'3', _, ?_, Or.inr rfl, hlength⟩
      rw [toHex, toBytes_short, hodd]
      exact Hex.toList_encode_append [3] _

theorem toList_toHex_ne_nil : key.toHex.toList ≠ [] := by
  obtain ⟨form, rest, hshape, -⟩ := exists_toList_toHex key
  rw [hshape]
  exact nofun

theorem length_utf8_toHex :
    (utf8 key.toHex).length = if key.compressed then 66 else 130 := by
  rw [toHex, Hex.length_utf8_encode, length_toBytes]
  split_ifs
  · rfl
  · rfl

theorem isAscii_toHex : Text.IsAscii key.toHex.toList := Hex.isAscii_encode _

/-- Whatever follows a leading two or three, the number is a scalar if four in that place is one. -/
theorem isScalar_of_leading {digit weight n : Nat} (hleading : digit = 2 ∨ digit = 3)
    (habove : digit * weight ≤ n) (hbelow : n < (digit + 1) * weight)
    (hfits : 4 * weight < Curve.order) : Curve.isScalar n = true := by
  rw [Curve.isScalar_iff]
  rcases hleading with rfl | rfl
  · omega
  · omega

/-- As a decimal numeral the short form is the scalar of a key, and the long form is too large. -/
theorem number_toHex (hdigits : AllDigits key.toHex) :
    if key.compressed then Curve.isScalar (Decimal.number key.toHex) = true
    else 2 ^ 256 ≤ Decimal.number key.toHex := by
  obtain ⟨form, rest, hshape, hformCases⟩ := exists_toList_toHex key
  rw [AllDigits, hshape, List.forall_mem_cons, List.forall_mem_cons] at hdigits
  have hsmall : ∀ d ∈ rest.map Decimal.digitValue, d < 10 := by
    intro d hmem
    obtain ⟨c, hmemRest, rfl⟩ := List.mem_map.mp hmem
    exact Decimal.digitValue_lt (hdigits.2.2 c hmemRest)
  -- the leading zero does not count, so the digit behind it leads the number
  have hnumber : Decimal.number key.toHex =
      Radix.value 10 (Decimal.digitValue form :: rest.map Decimal.digitValue) := by
    rw [Decimal.number, hshape, List.map_cons, List.map_cons, Radix.value_cons]
    exact (Nat.add_eq_right).mpr (Nat.zero_mul _)
  obtain ⟨habove, hbelow⟩ := Radix.value_cons_bounds 10 (by decide) (Decimal.digitValue form) _ hsmall
  rw [← hnumber, List.length_map] at habove hbelow
  split_ifs at hformCases ⊢
  · obtain ⟨hformCases, hlength⟩ := hformCases
    rw [hlength] at habove hbelow
    refine isScalar_of_leading ?_ habove hbelow (by decide)
    rcases hformCases with rfl | rfl
    · exact Or.inl rfl
    · exact Or.inr rfl
  · obtain ⟨rfl, hlength⟩ := hformCases
    rw [hlength] at habove
    exact le_trans (by decide) habove

/-- As a numeral the 130 digits of the long form exceed 32 bytes. -/
theorem ofDecimal_toHex_long (hlong : key.compressed = false) (hdigits : AllDigits key.toHex) :
    PrivateKey.ofDecimal key.toHex = .error (.invalidFormat (.decimalTooWide 32)) := by
  have hlarge := number_toHex key hdigits
  rw [hlong] at hlarge
  rw [PrivateKey.ofDecimal_of_digits _ (toList_toHex_ne_nil key) hdigits]
  exact if_neg (Nat.not_lt.mpr hlarge)

theorem ofDecimal_toHex_short (hcompressed : key.compressed = true) (hdigits : AllDigits key.toHex) :
    ∃ scalar : FixedBytes 32, Curve.isScalar scalar.toNat = true ∧
      PrivateKey.ofDecimal key.toHex = .ok ⟨scalar, true⟩ := by
  have hvalid := number_toHex key hdigits
  rw [if_pos hcompressed] at hvalid
  have hsmall : Decimal.number key.toHex < 2 ^ 256 :=
    ((Curve.isScalar_iff _).mp hvalid).2.trans Curve.order_lt
  have hvalue : (FixedBytes.ofNat 32 (Decimal.number key.toHex)).toNat = Decimal.number key.toHex :=
    FixedBytes.toNat_ofNat (hsmall.trans_eq (by norm_num))
  refine ⟨.ofNat 32 (Decimal.number key.toHex), ?_, ?_⟩
  · rw [hvalue]
    exact hvalid
  · rw [PrivateKey.ofDecimal_of_digits _ (toList_toHex_ne_nil key) hdigits]
    exact if_pos hsmall

/-- The short form without its last byte is a scalar as well, for its first byte is two or three. -/
theorem exists_scalar_marker (hcompressed : key.compressed = true) :
    ∃ (scalar : FixedBytes 32) (marker : UInt8), key.toBytes = scalar.toBytes ++ [marker] ∧
      Curve.isScalar scalar.toNat = true := by
  obtain ⟨p, flag⟩ := key
  obtain rfl : flag = true := hcompressed
  have hlength : (toBytes ⟨p, true⟩).length = 33 := length_toBytes _
  obtain ⟨scalar, marker, hsplit⟩ := PrivateKey.exists_marked _ hlength
  refine ⟨scalar, marker, hsplit, ?_⟩
  have hshape : scalar.toBytes = parityByte p.y.isOdd :: (coordinateBytes p.x).take 31 := by
    rw [← PrivateKey.take_marked scalar marker, ← hsplit, toBytes_short, List.take_succ_cons]
  have hlengthRest : ((coordinateBytes p.x).take 31).length = 31 := by
    rw [List.length_take, length_coordinateBytes]
    rfl
  obtain ⟨habove, hbelow⟩ := Radix.value_cons_bounds 256 (by decide) (parityByte p.y.isOdd).toNat _
    (Bytes.map_toNat_lt ((coordinateBytes p.x).take 31))
  rw [← List.map_cons, ← hshape, List.length_map, hlengthRest] at habove hbelow
  refine isScalar_of_leading ?_ habove hbelow (by decide)
  cases p.y.isOdd
  · exact Or.inl rfl
  · exact Or.inr rfl

/-- So the last byte alone decides whether the short form is a private key in hex. -/
theorem ofHex_toHex_short (hcompressed : key.compressed = true) :
    ∃ (scalar : FixedBytes 32) (marker : UInt8), Curve.isScalar scalar.toNat = true ∧
      (EndsInMarker key.toHex ↔ marker = PrivateKey.compressedMarker) ∧
      PrivateKey.ofHex key.toHex =
        if marker = PrivateKey.compressedMarker then .ok ⟨scalar, true⟩
        else .error (.invalidFormat (.hexCompressionMarker marker)) := by
  obtain ⟨scalar, marker, hsplit, hvalid⟩ := exists_scalar_marker key hcompressed
  refine ⟨scalar, marker, hvalid, ?_, ?_⟩
  · rw [toHex, hsplit]
    exact endsInMarker_encode_iff scalar.toBytes marker
  · rw [PrivateKey.ofHex, toHex, Hex.decode_encode, hsplit]
    exact PrivateKey.ofHexBytes_marked scalar marker

section

variable (lineFeed : Bool)

theorem dropFinalNewline_toHex : dropFinalNewline (textData key.toHex lineFeed) = utf8 key.toHex :=
  KeyGuess.dropFinalNewline_textData (isAscii_toHex key) lineFeed (Hex.newline_notMem_encode _)

theorem decimalText_toHex_iff :
    DecimalText (dropFinalNewline (textData key.toHex lineFeed)) ↔ AllDigits key.toHex := by
  rw [dropFinalNewline_toHex, KeyGuess.decimalText_utf8_iff (isAscii_toHex key)]
  exact and_iff_right (toList_toHex_ne_nil key)

/-- Without a letter the text is taken for the numeral of a private key. -/
theorem ofData_toHex_decimal (hdigits : AllDigits key.toHex) :
    KeyGuess.ofData (textData key.toHex lineFeed) =
      (PrivateKey.ofDecimal key.toHex).map (⟨·, .decimal, none⟩) := by
  have hdecimal := (decimalText_toHex_iff key lineFeed).mpr hdigits
  rw [KeyGuess.ofData_eq_read _ (KeyGuess.classify_decimal _ hdecimal), KeyGuess.read,
    dropFinalNewline_toHex, Text.ofAscii_utf8 _ (isAscii_toHex key)]

/-- With a letter the 66 digits of the short form are taken for the hex text of a private key. -/
theorem ofData_toHex_hex (hdigits : ¬AllDigits key.toHex) (hcompressed : key.compressed = true) :
    KeyGuess.ofData (textData key.toHex lineFeed) =
      (PrivateKey.ofHex key.toHex).map (⟨·, .hex, none⟩) := by
  have hdecimal := mt (decimalText_toHex_iff key lineFeed).mp hdigits
  have hhex : HexText (dropFinalNewline (textData key.toHex lineFeed)) := by
    rw [dropFinalNewline_toHex]
    refine ⟨Or.inr ?_, fun byte hmem => ?_⟩
    · rw [length_utf8_toHex, if_pos hcompressed]
    · exact (Hex.isDigit_iff byte).mp (Hex.isDigit_utf8_encode _ byte hmem)
  rw [KeyGuess.ofData_eq_read _ (KeyGuess.classify_hex _ hdecimal hhex), KeyGuess.read,
    dropFinalNewline_toHex, Text.ofAscii_utf8 _ (isAscii_toHex key)]

theorem classify_toHex_long (hdigits : ¬AllDigits key.toHex) (hlong : key.compressed = false) :
    KeyGuess.classify (textData key.toHex lineFeed) = some .phrase := by
  have hdecimal := mt (decimalText_toHex_iff key lineFeed).mp hdigits
  have hlength : (dropFinalNewline (textData key.toHex lineFeed)).length = 130 := by
    rw [dropFinalNewline_toHex, length_utf8_toHex, hlong]
    rfl
  -- By its length the text is neither hex nor in wallet import format.
  apply KeyGuess.classify_phrase _ hdecimal
  · intro hhex
    have := hhex.1
    omega
  · rintro ⟨privateKey, network, hwritten⟩
    have hwif := Wif.length_encode privateKey network
    rw [hwritten, Text.utf8_of_ascii _ (Wif.isAscii_encode _ _), List.length_map, hwif] at hlength
    split_ifs at hlength <;> cases hlength
  · rw [dropFinalNewline_toHex]
    apply KeyGuess.phraseText_of_isDigit
    · intro hnone
      have := length_utf8_toHex key
      rw [hnone, hlong] at this
      exact absurd this (by decide)
    · exact Hex.isDigit_utf8_encode _

/-- A numeral of this length is refused as too large, and any other text is taken for a phrase. -/
theorem not_isCertainFormat_toHex_long (hlong : key.compressed = false) {found : KeyGuess}
    (hread : KeyGuess.ofData (textData key.toHex lineFeed) = .ok found) :
    isCertainFormat found.format = false := by
  by_cases hdigits : AllDigits key.toHex
  · rw [ofData_toHex_decimal key lineFeed hdigits, ofDecimal_toHex_long key hlong hdigits] at hread
    cases hread
  · have hphrase := (KeyGuess.format_of_ofData _ hread).1
    rw [classify_toHex_long key lineFeed hdigits hlong] at hphrase
    rw [← Option.some.inj hphrase]
    rfl

end

structure IsGuessedAs (key : PublicKey) (data : Bytes) : Prop where
  long : key.compressed = false → guess data = .ok key
  short : key.compressed = true → ¬AllDigits key.toHex → ¬EndsInMarker key.toHex →
    guess data = .ok key
  numeral : key.compressed = true → AllDigits key.toHex →
    ∃ privateKey publicKey, PrivateKey.ofDecimal key.toHex = .ok privateKey ∧
      derive privateKey = .ok publicKey ∧ guess data = .ok publicKey
  marked : key.compressed = true → ¬AllDigits key.toHex → EndsInMarker key.toHex →
    ∃ privateKey publicKey, PrivateKey.ofHex key.toHex = .ok privateKey ∧
      derive privateKey = .ok publicKey ∧ guess data = .ok publicKey

/-- The hex text of a public key, with or without a line feed behind it, is read as that key. Only
the text of a compressed key that is a decimal numeral or ends in the marker is read as the
private key that it spells, which has a public key in either case. -/
theorem guesses_written_hex (lineFeed : Bool) : IsGuessedAs key (textData key.toHex lineFeed) := by
  have hpoint : ofHexAscii (dropFinalNewline (textData key.toHex lineFeed)) = .ok key := by
    rw [dropFinalNewline_toHex, ofHexAscii_toHex]
  constructor
  case long =>
    intro hlong
    exact guess_of_point hpoint fun _ => not_isCertainFormat_toHex_long key lineFeed hlong
  case short =>
    intro hcompressed hdigits hunmarked
    obtain ⟨scalar, marker, -, hmarkedIff, hreadHex⟩ := ofHex_toHex_short key hcompressed
    apply guess_of_point hpoint
    -- The rule for private keys in hex takes the text and then refuses its marker.
    intro found hread
    rw [ofData_toHex_hex key lineFeed hdigits hcompressed, hreadHex,
      if_neg (mt hmarkedIff.mpr hunmarked)] at hread
    cases hread
  case numeral =>
    intro hcompressed hdigits
    obtain ⟨scalar, hvalid, hreadDecimal⟩ := ofDecimal_toHex_short key hcompressed hdigits
    have hread : KeyGuess.ofData (textData key.toHex lineFeed) =
        .ok ⟨⟨scalar, true⟩, .decimal, none⟩ := by
      rw [ofData_toHex_decimal key lineFeed hdigits, hreadDecimal]
      rfl
    exact ⟨_, (exists_guess_of_certain hread rfl hvalid).imp fun _ => .intro hreadDecimal⟩
  case marked =>
    intro hcompressed hdigits hmarked
    obtain ⟨scalar, marker, hvalid, hmarkedIff, hreadHex⟩ := ofHex_toHex_short key hcompressed
    rw [if_pos (hmarkedIff.mp hmarked)] at hreadHex
    have hread : KeyGuess.ofData (textData key.toHex lineFeed) =
        .ok ⟨⟨scalar, true⟩, .hex, none⟩ := by
      rw [ofData_toHex_hex key lineFeed hdigits hcompressed, hreadHex]
      rfl
    exact ⟨_, (exists_guess_of_certain hread rfl hvalid).imp fun _ => .intro hreadHex⟩

/-- The short form of a point that is taken for a private key in hex. -/
example :
    let text := "02b40711a88c7039756fb8a73827eabe2c0fe5a0346ca7e0a104adc0fc764f5201"
    (ofHex text).toBool = true ∧ guess (utf8 text) =
      ofHex "029bcdaa229407467c3ca5c98b857668d35641353dea6dcc2500d571a7edce93ee" := by
  decide +kernel

end BitcoinKeys.PublicKey
