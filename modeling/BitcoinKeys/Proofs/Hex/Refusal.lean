import BitcoinKeys.Proofs.Hex.Canonical

/-! Why a text is not read as hexadecimal digits: for the number of its bytes, and otherwise for its first
byte that is no digit. A character outside ASCII counts with all of its bytes, none of which is a digit. -/
namespace BitcoinKeys.Hex

theorem digitValue_of_not_isDigit {byte : UInt8} (h : isDigit byte = false) :
    digitValue byte = .error (.invalidFormat (.hexCharacter byte)) := by
  rw [digitValue, Option.not_isSome_iff_eq_none.mp (Bool.eq_false_iff.mp h)]

theorem exists_digitValue {byte : UInt8} (h : isDigit byte = true) :
    ∃ v, digitValue byte = .ok v := by
  obtain ⟨v, hv⟩ := Option.isSome_iff_exists.mp h
  exact ⟨v, (digitValue_eq_ok_iff byte v).mpr hv⟩

/-- What two digits are read as stands in front of what the pairs behind them are read as. -/
theorem decodePairs_of_digits {high low : UInt8} (hhigh : isDigit high = true)
    (hlow : isDigit low = true) (rest : Bytes) :
    ∃ byte, decodePairs (high :: low :: rest) = (decodePairs rest).map (byte :: ·) := by
  obtain ⟨v, hv⟩ := exists_digitValue hhigh
  obtain ⟨w, hw⟩ := exists_digitValue hlow
  refine ⟨UInt8.ofNat (16 * v + w), ?_⟩
  rw [decodePairs, hv, hw]
  cases decodePairs rest <;> rfl

/-- Digits are read to the end. -/
theorem exists_decodePairs {text : Bytes} (h : ∀ byte ∈ text, isDigit byte = true) :
    ∃ bytes, decodePairs text = .ok bytes := by
  match text with
  | [] => exact ⟨[], rfl⟩
  | [_] => exact ⟨[], rfl⟩
  | high :: low :: rest =>
    obtain ⟨hhigh, hbehind⟩ := List.forall_mem_cons.mp h
    obtain ⟨hlow, hrest⟩ := List.forall_mem_cons.mp hbehind
    obtain ⟨byte, hpair⟩ := decodePairs_of_digits hhigh hlow rest
    obtain ⟨bytes, hbytes⟩ := exists_decodePairs hrest
    rw [hpair, hbytes]
    exact ⟨byte :: bytes, rfl⟩

/-- The pair with the first byte that is no digit is refused for that byte, whichever of the two
it is. -/
theorem decodePairs_of_fault {text : Bytes} {byte : UInt8} (heven : text.length % 2 = 0)
    (h : text.find? (!isDigit ·) = some byte) :
    decodePairs text = .error (.invalidFormat (.hexCharacter byte)) := by
  match text with
  | [] => cases h
  | [_] => cases heven
  | high :: low :: rest =>
    -- the pair is at fault if either digit is; otherwise the fault is in the rest
    cases hhigh : isDigit high with
    | false =>
      rw [List.find?_cons_of_pos (by rw [hhigh, Bool.not_false])] at h
      cases h
      rw [decodePairs, digitValue_of_not_isDigit hhigh]
      rfl
    | true =>
      rw [List.find?_cons_of_neg (by rw [hhigh]; decide)] at h
      cases hlow : isDigit low with
      | false =>
        rw [List.find?_cons_of_pos (by rw [hlow, Bool.not_false])] at h
        cases h
        obtain ⟨v, hv⟩ := exists_digitValue hhigh
        rw [decodePairs, hv, digitValue_of_not_isDigit hlow]
        rfl
      | true =>
        rw [List.find?_cons_of_neg (by rw [hlow]; decide)] at h
        have hrest : rest.length % 2 = 0 := by
          rw [List.length_cons, List.length_cons] at heven
          omega
        obtain ⟨_, hpair⟩ := decodePairs_of_digits hhigh hlow rest
        rw [hpair, decodePairs_of_fault hrest h]
        rfl

theorem decode_of_odd {text : String} (h : Text.byteLength text % 2 = 1) :
    decode text = .error (.invalidFormat (.oddHexLength (Text.byteLength text))) := by
  rw [decode, decodeAscii, Text.length_utf8, if_pos (by omega)]

theorem decode_of_even {text : String} (h : Text.byteLength text % 2 = 0) :
    decode text = decodePairs (Text.utf8 text) := by
  rw [decode, decodeAscii, Text.length_utf8, if_neg (by omega)]

/-- The number of bytes is judged first, and then the bytes from left to right. -/
theorem decode_cases (text : String) :
    (Text.byteLength text % 2 = 1 ∧
        decode text = .error (.invalidFormat (.oddHexLength (Text.byteLength text)))) ∨
      (Text.byteLength text % 2 = 0 ∧ ∃ byte, (Text.utf8 text).find? (!isDigit ·) = some byte ∧
        decode text = .error (.invalidFormat (.hexCharacter byte))) ∨
      (Text.byteLength text % 2 = 0 ∧ (Text.utf8 text).find? (!isDigit ·) = none ∧
        ∃ bytes, decode text = .ok bytes) := by
  rcases Nat.mod_two_eq_zero_or_one (Text.byteLength text) with heven | hodd
  · refine Or.inr ?_
    have hpairs : (Text.utf8 text).length % 2 = 0 := by rw [Text.length_utf8, heven]
    cases hfirst : (Text.utf8 text).find? (!isDigit ·) with
    | some byte =>
      refine Or.inl ⟨heven, byte, rfl, ?_⟩
      rw [decode_of_even heven, decodePairs_of_fault hpairs hfirst]
    | none =>
      have hdigits : ∀ byte ∈ Text.utf8 text, isDigit byte = true := by simpa using hfirst
      obtain ⟨bytes, hbytes⟩ := exists_decodePairs hdigits
      refine Or.inr ⟨heven, rfl, bytes, ?_⟩
      rw [decode_of_even heven, hbytes]
  · exact Or.inl ⟨hodd, decode_of_odd hodd⟩

theorem decode_eq_oddHexLength_iff (text : String) (length : Nat) :
    decode text = .error (.invalidFormat (.oddHexLength length)) ↔
      length = Text.byteLength text ∧ Text.byteLength text % 2 = 1 := by
  constructor
  · intro h
    rcases decode_cases text with ⟨hodd, hread⟩ | ⟨-, byte, -, hread⟩ | ⟨-, -, bytes, hread⟩
    · rw [hread] at h
      cases h
      exact ⟨rfl, hodd⟩
    · rw [hread] at h
      cases h
    · rw [hread] at h
      cases h
  · rintro ⟨rfl, hodd⟩
    exact decode_of_odd hodd

/-- The fault names the first byte that is no digit, in a text of even length. -/
theorem decode_eq_hexCharacter_iff (text : String) (byte : UInt8) :
    decode text = .error (.invalidFormat (.hexCharacter byte)) ↔
      Text.byteLength text % 2 = 0 ∧ (Text.utf8 text).find? (!isDigit ·) = some byte := by
  constructor
  · intro h
    rcases decode_cases text with ⟨-, hread⟩ | ⟨heven, byte, hfirst, hread⟩ | ⟨-, -, bytes, hread⟩
    · rw [hread] at h
      cases h
    · rw [hread] at h
      cases h
      exact ⟨heven, hfirst⟩
    · rw [hread] at h
      cases h
  · rintro ⟨heven, hfirst⟩
    rw [decode_of_even heven]
    rw [← Text.length_utf8] at heven
    exact decodePairs_of_fault heven hfirst

/-- A text is read as the bytes whose digits are its lower case form. Any other text is refused
for the number of its bytes if that is odd, and otherwise for its first byte that is no digit,
which is shown as the character of that code point. Nothing else happens, also outside ASCII. -/
theorem refused_for_length_or_first_byte (text : String) :
    (∀ bytes, decode text = .ok bytes ↔ Text.lower text = encode bytes) ∧
      (∀ length, decode text = .error (.invalidFormat (.oddHexLength length)) ↔
        length = Text.byteLength text ∧ Text.byteLength text % 2 = 1) ∧
      (∀ byte, decode text = .error (.invalidFormat (.hexCharacter byte)) ↔
        Text.byteLength text % 2 = 0 ∧ (Text.utf8 text).find? (!isDigit ·) = some byte) ∧
      ((∃ length, decode text = .error (.invalidFormat (.oddHexLength length))) ∨
        (∃ byte, decode text = .error (.invalidFormat (.hexCharacter byte))) ∨
        ∃ bytes, decode text = .ok bytes) ∧
      (∀ byte, isDigit byte = true ↔
        (48 ≤ byte ∧ byte ≤ 57) ∨ (97 ≤ byte ∧ byte ≤ 102) ∨ (65 ≤ byte ∧ byte ≤ 70)) ∧
      ∀ byte, ∃ c : Char, c.toNat = byte.toNat ∧
        (FormatFault.hexCharacter byte).message = s!"invalid hex character '{c}'" := by
  refine ⟨decode_eq_ok_iff text, decode_eq_oddHexLength_iff text, decode_eq_hexCharacter_iff text,
    ?_, isDigit_iff, fun byte => ⟨Char.ofUInt8 byte, Text.toNat_ofUInt8 byte, rfl⟩⟩
  rcases decode_cases text with ⟨-, hread⟩ | ⟨-, byte, -, hread⟩ | ⟨-, -, hread⟩
  · exact Or.inl ⟨_, hread⟩
  · exact Or.inr (Or.inl ⟨byte, hread⟩)
  · exact Or.inr (Or.inr hread)

/-- The two bytes of a letter outside ASCII make an even length, and the first of them is
reported. -/
example : decode "0aé" = .error (.invalidFormat (.hexCharacter 0xc3)) := by decide +kernel

end BitcoinKeys.Hex
