import BitcoinKeys.Proofs.Base58

namespace BitcoinKeys.Base58

theorem checkEncode_eq (payload : Bytes) :
    checkEncode none payload = encodeBytes (payload ++ (Hash.checksum payload).toBytes) := rfl

/-- A payload is read from the text written for it alone, up to blanks around it. -/
theorem checkDecode_eq_ok_iff (text : String) (payload : Bytes) :
    checkDecode text = .ok payload ↔ Text.trimBlank text = checkEncode none payload := by
  rw [checkDecode, bind_eq_ok_iff, checkEncode_eq, ← decode_eq_ok_iff]
  constructor
  · rintro ⟨bytes, hbytes, hok⟩
    simp only [ne_eq, ite_not] at hok
    split_ifs at hok with hshort hsum
    cases hok
    rw [hsum, List.take_append_drop]
    exact hbytes
  · intro h
    refine ⟨_, h, ?_⟩
    have hchecksum := (Hash.checksum payload).length_eq
    have hlength : (payload ++ (Hash.checksum payload).toBytes).length - 4 = payload.length := by
      rw [List.length_append, hchecksum, Nat.add_sub_cancel]
    rw [if_neg (by rw [List.length_append]; omega)]
    simp only [hlength, List.take_left, List.drop_left, ne_eq, not_true, if_false]

theorem trimBlank_checkEncode (version : Option VersionByte) (payload : Bytes) :
    Text.trimBlank (checkEncode version payload) = checkEncode version payload :=
  trimBlank_encodeBytes _

/-- The version byte stays in front of the payload. -/
theorem checkDecode_checkEncode (version : Option VersionByte) (payload : Bytes) :
    checkDecode (checkEncode version payload) = .ok (versioned version payload) :=
  (checkDecode_eq_ok_iff ..).mpr (trimBlank_checkEncode version payload)

end BitcoinKeys.Base58
