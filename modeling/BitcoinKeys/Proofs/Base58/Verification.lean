import BitcoinKeys.Proofs.Base58Check
import BitcoinKeys.Proofs.Base58.Refusal

/-! Verifying the checksum of a text and reading the payload in front of it agree on every text: what
verification denies is refused for the checksum, and what it cannot judge is refused for the same fault. -/
namespace BitcoinKeys.Base58

def IsUnsplit (text : String) (fault : Fault) : Prop :=
  decode text = .error fault ∨
    ∃ bytes, decode text = .ok bytes ∧ bytes.length < 4 ∧ fault = .tooShort bytes.length

/-- A wrong checksum is never the reason that there is nothing to compare it with. -/
theorem ne_badChecksum_of_isUnsplit {text : String} {fault : Fault} (h : IsUnsplit text fault) :
    fault ≠ .badChecksum := by
  rintro rfl
  rcases h with hread | ⟨bytes, -, -, hfault⟩
  · exact (decode_eq_error_iff text .badChecksum).mp hread
  · cases hfault

/-- A text can be split into payload and checksum, or it has a fault before that. -/
theorem isUnsplit_or_decode (text : String) :
    (∃ fault, IsUnsplit text fault) ∨ ∃ bytes, decode text = .ok bytes ∧ 4 ≤ bytes.length := by
  cases hread : decode text with
  | error fault => exact Or.inl ⟨fault, Or.inl hread⟩
  | ok bytes =>
    by_cases hshort : bytes.length < 4
    · exact Or.inl ⟨_, Or.inr ⟨bytes, hread, hshort, rfl⟩⟩
    · exact Or.inr ⟨bytes, rfl, Nat.not_lt.mp hshort⟩

section

variable {text : String} {fault : Fault} (h : IsUnsplit text fault)
include h

theorem checksumHolds_of_isUnsplit : checksumHolds text = .error fault := by
  rw [checksumHolds, bind_eq_error_iff]
  rcases h with hread | ⟨bytes, hread, hshort, rfl⟩
  · exact Or.inl hread
  · exact Or.inr ⟨bytes, hread, if_pos hshort⟩

theorem checkDecode_of_isUnsplit : checkDecode text = .error fault := by
  rw [checkDecode, bind_eq_error_iff]
  rcases h with hread | ⟨bytes, hread, hshort, rfl⟩
  · exact Or.inl hread
  · exact Or.inr ⟨bytes, hread, if_pos hshort⟩

end

section

variable {text : String} {bytes : Bytes} (hread : decode text = .ok bytes) (hlong : 4 ≤ bytes.length)
include hread hlong

theorem checksumHolds_of_decode : checksumHolds text =
    .ok ((Hash.checksum (bytes.take (bytes.length - 4))).toBytes = bytes.drop (bytes.length - 4)) := by
  rw [checksumHolds, bind_eq_ok_iff]
  exact ⟨bytes, hread, if_neg (Nat.not_lt.mpr hlong)⟩

/-- Where verification answers no, reading fails for the checksum and for nothing else. -/
theorem checkDecode_of_decode : checkDecode text =
    if (Hash.checksum (bytes.take (bytes.length - 4))).toBytes = bytes.drop (bytes.length - 4) then
      .ok (bytes.take (bytes.length - 4))
    else .error .badChecksum := by
  rw [checkDecode, hread]
  exact (if_neg (Nat.not_lt.mpr hlong)).trans (ite_not ..)

end

theorem checksumHolds_eq_error_iff (text : String) (fault : Fault) :
    checksumHolds text = .error fault ↔ IsUnsplit text fault := by
  refine ⟨fun h => ?_, checksumHolds_of_isUnsplit⟩
  rcases isUnsplit_or_decode text with ⟨other, hunsplit⟩ | ⟨bytes, hread, hlong⟩
  · cases (checksumHolds_of_isUnsplit hunsplit).symm.trans h
    exact hunsplit
  · cases (checksumHolds_of_decode hread hlong).symm.trans h

/-- What verification says of a text and what reading its payload gives. -/
structure Agrees (verified : Except Fault Bool) (read : Except Fault Bytes) : Prop where
  holds : verified = .ok true ↔ ∃ payload, read = .ok payload
  fails : verified = .ok false ↔ read = .error .badChecksum
  stops : ∀ fault, verified = .error fault ↔ read = .error fault ∧ fault ≠ .badChecksum

/-- Verifying and reading go through the same steps, apart from what they make of a wrong
checksum. -/
theorem agrees (text : String) : Agrees (checksumHolds text) (checkDecode text) := by
  rcases isUnsplit_or_decode text with ⟨fault, hunsplit⟩ | ⟨bytes, hread, hlong⟩
  · have hne := ne_badChecksum_of_isUnsplit hunsplit
    rw [checksumHolds_of_isUnsplit hunsplit, checkDecode_of_isUnsplit hunsplit]
    constructor
    case holds => simp
    case fails => simp [hne]
    case stops =>
      intro other
      rw [Except.error.injEq, Except.error.injEq]
      refine ⟨?_, And.left⟩
      rintro rfl
      exact ⟨rfl, hne⟩
  · rw [checksumHolds_of_decode hread hlong, checkDecode_of_decode hread hlong]
    by_cases hsum :
        (Hash.checksum (bytes.take (bytes.length - 4))).toBytes = bytes.drop (bytes.length - 4)
    · rw [if_pos hsum, decide_eq_true hsum]
      constructor
      case holds => simp
      case fails => simp
      case stops => simp
    · rw [if_neg hsum, decide_eq_false hsum]
      constructor
      case holds => simp
      case fails => simp
      case stops => simp

/-- A payload is read from what is written for it, blanks around it apart, and from nothing else.
Verification tells all texts that it is read from; it stops only where there are no bytes to split
or fewer than four of them. -/
theorem verification_decides_reading :
    (∀ text payload, checkDecode text = .ok payload ↔
        Text.trimBlank text = checkEncode none payload) ∧
      (∀ text, Agrees (checksumHolds text) (checkDecode text)) ∧
      (∀ text fault, checksumHolds text = .error fault ↔
        decode text = .error fault ∨
          ∃ bytes, decode text = .ok bytes ∧ bytes.length < 4 ∧ fault = .tooShort bytes.length) ∧
      ∀ version payload,
        checkDecode (checkEncode (some version) payload) = .ok (version.toByte :: payload) :=
  ⟨checkDecode_eq_ok_iff, agrees, checksumHolds_eq_error_iff,
    fun version payload => checkDecode_checkEncode (some version) payload⟩

/-- Three bytes are one too few, a fourth one is taken for a checksum. -/
example : checksumHolds " 111" = .error (.tooShort 3) ∧ checksumHolds "1111" = .ok false := by
  decide +kernel

end BitcoinKeys.Base58
