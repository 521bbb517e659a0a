import BitcoinKeys.Proofs.Hex.Canonical
import BitcoinKeys.Proofs.PrivateKey

/-! Which texts and bytes are read as a key: its hex form in either case, its raw form, and for a key that
is not compressed the scalar with the other marker behind it. -/
namespace BitcoinKeys.PrivateKey

/-- Bytes are a scalar, a scalar with a marker, or of no length that is read. -/
theorem length_cases (bytes : Bytes) :
    (∃ scalar : FixedBytes 32, bytes = scalar.toBytes) ∨
      (∃ (scalar : FixedBytes 32) (marker : UInt8), bytes = scalar.toBytes ++ [marker]) ∨
      (bytes.length ≠ 32 ∧ bytes.length ≠ 33) := by
  by_cases hscalar : bytes.length = 32
  · exact Or.inl ⟨⟨bytes, hscalar⟩, rfl⟩
  · by_cases hmarked : bytes.length = 33
    · exact Or.inr (Or.inl (exists_marked bytes hmarked))
    · exact Or.inr (Or.inr ⟨hscalar, hmarked⟩)

theorem toRaw_of_ofHexBytes {bytes : Bytes} {key : PrivateKey} (h : ofHexBytes bytes = .ok key) :
    bytes = key.toRaw := by
  rcases length_cases bytes with ⟨scalar, rfl⟩ | ⟨scalar, marker, rfl⟩ | ⟨hscalar, hmarked⟩
  · rw [ofHexBytes_scalar] at h
    cases h
    exact (toRaw_uncompressed scalar).symm
  · rw [ofHexBytes_marked] at h
    split_ifs at h with hmarker
    cases h
    rw [toRaw_compressed, hmarker]
  · rw [ofHexBytes, if_neg hscalar, if_neg hmarked] at h
    cases h

/-- In either case of its letters the hex text is the written one. -/
theorem ofHex_eq_ok_iff (text : String) (key : PrivateKey) :
    ofHex text = .ok key ↔ Text.lower text = key.toHex := by
  constructor
  · intro h
    obtain ⟨bytes, hbytes, hkey⟩ := (bind_eq_ok_iff ..).mp h
    rw [toHex, ← toRaw_of_ofHexBytes hkey]
    exact (Hex.decode_eq_ok_iff text bytes).mp hbytes
  · intro h
    -- the text is read as the bytes that its own hex form is read as
    have hbytes := (Hex.decode_eq_ok_iff text key.toRaw).mpr h
    have hback := ofHex_toHex key
    rw [ofHex, toHex, Hex.decode_encode] at hback
    rw [ofHex, hbytes]
    exact hback

/-- The marker of a key that is not compressed is read from raw bytes, but not written. -/
theorem ofRaw_eq_ok_iff (bytes : Bytes) (key : PrivateKey) :
    ofRaw bytes = .ok key ↔ bytes = key.toRaw ∨
      (key.compressed = false ∧ bytes = key.scalar.toBytes ++ [uncompressedMarker]) := by
  constructor
  · intro h
    -- a scalar alone, a scalar with either marker, or a length that is refused
    rcases length_cases bytes with ⟨scalar, rfl⟩ | ⟨scalar, marker, rfl⟩ | ⟨hscalar, hmarked⟩
    · rw [ofRaw_scalar] at h
      cases h
      exact Or.inl (toRaw_uncompressed scalar).symm
    · rw [ofRaw_marked] at h
      split_ifs at h with hcompressed huncompressed
      · cases h
        rw [toRaw_compressed, hcompressed]
        exact Or.inl rfl
      · cases h
        rw [huncompressed]
        exact Or.inr ⟨rfl, rfl⟩
    · rw [ofRaw, if_neg hscalar, if_neg hmarked] at h
      cases h
  · rintro (rfl | ⟨hflag, rfl⟩)
    · exact ofRaw_toRaw key
    · obtain ⟨scalar, compressed⟩ := key
      rw [ofRaw_marked]
      subst hflag
      rfl

/-- A key is read from its hex form in either case, and from its raw form; in raw bytes a zero may
stand behind the scalar of a key that is not compressed. Nothing else is read, so both forms tell
the scalar and the flag. -/
theorem hex_and_raw_determine_key :
    (∀ text key, ofHex text = .ok key ↔ Text.lower text = key.toHex) ∧
      (∀ bytes key, ofRaw bytes = .ok key ↔ bytes = key.toRaw ∨
        (key.compressed = false ∧ bytes = key.scalar.toBytes ++ [0x00])) ∧
      ∀ key, ofHex key.toHex = .ok key ∧ ofRaw key.toRaw = .ok key :=
  ⟨ofHex_eq_ok_iff, ofRaw_eq_ok_iff, fun key => ⟨ofHex_toHex key, ofRaw_toRaw key⟩⟩

end BitcoinKeys.PrivateKey
