import BitcoinKeys.Proofs.Base58Check
import BitcoinKeys.Proofs.PrivateKey
import BitcoinKeys.Wif

/-! Wallet import format. The length of the payload tells the flag and its first byte the network, so a
text that is read is the one that is written for the key. -/
namespace BitcoinKeys.Wif

theorem toByte_of_ofNat? {byte : UInt8} {version : VersionByte}
    (h : VersionByte.ofNat? byte.toNat = some version) : byte = version.toByte := by
  have hn : byte.toNat = version.toByte.toNat := by
    revert h
    fun_cases VersionByte.ofNat? byte.toNat <;> intro h <;> cases h <;> rfl
  exact UInt8.toNat_inj.mp hn

theorem ofWifVersion?_eq_some_iff (byte : UInt8) (network : Network) :
    Network.ofWifVersion? byte = some network ↔ byte = network.wifVersion.toByte := by
  constructor
  · intro h
    rw [Network.ofWifVersion?] at h
    split at h
    · cases h
      exact toByte_of_ofNat? ‹_›
    · cases h
      exact toByte_of_ofNat? ‹_›
    · cases h
  · rintro rfl
    cases network <;> rfl

theorem readNetwork_eq_ok_iff (version : UInt8) (network : Network) :
    readNetwork version = .ok network ↔ version = network.wifVersion.toByte := by
  rw [← ofWifVersion?_eq_some_iff, readNetwork]
  cases Network.ofWifVersion? version with
  | none => simp
  | some found => simp

/-- The length tells whether there is a marker, and no marker but the compressed one is read. -/
theorem readFlag_eq_ok_iff (payload : Bytes) (compressed : Bool) :
    readFlag payload = .ok compressed ↔
      (payload.length = 33 ∧ compressed = false) ∨
        (payload.length = 34 ∧ payload.getD 33 0 = PrivateKey.compressedMarker ∧
          compressed = true) := by
  rw [readFlag]
  by_cases h33 : payload.length = 33
  · simp [h33, eq_comm]
  · by_cases h34 : payload.length = 34
    · by_cases hm : payload.getD 33 0 = PrivateKey.compressedMarker
      · simp only [h34, hm]
        simp [eq_comm]
      · simp only [h34, hm]
        simp
    · simp [h33, h34]

/-- A payload is read exactly if it is the raw form of the key behind the version byte. -/
theorem ofPayload_eq_ok_iff (payload : Bytes) (key : PrivateKey) (network : Network) :
    ofPayload payload = .ok (key, network) ↔ payload = network.wifVersion.toByte :: key.toRaw := by
  simp only [ofPayload, bind_eq_ok_iff, readFlag_eq_ok_iff, readNetwork_eq_ok_iff,
    PrivateKey.ofScalar_eq_ok_iff]
  constructor
  · rintro ⟨compressed, hflag, _, hversion, ⟨scalar, _⟩, ⟨hscalar, rfl⟩, hpair⟩
    cases hpair
    -- behind the version byte there is the raw form, with or without its marker
    cases payload with
    | nil => simp at hflag
    | cons version raw =>
      simp only [List.headD_cons] at hversion
      simp only [List.drop_succ_cons, List.drop_zero] at hscalar
      rw [hversion]
      rcases hflag with ⟨hl, rfl⟩ | ⟨hl, hmarker, rfl⟩
      · rw [PrivateKey.toRaw_uncompressed, hscalar, List.take_of_length_le]
        simp only [List.length_cons] at hl
        omega
      · obtain ⟨front, marker, rfl⟩ := PrivateKey.exists_marked raw (Nat.succ.inj hl)
        rw [List.getD_cons_succ, PrivateKey.getD_marked] at hmarker
        rw [PrivateKey.take_marked] at hscalar
        rw [PrivateKey.toRaw_compressed, hscalar, hmarker]
  · rintro rfl
    obtain ⟨scalar, compressed⟩ := key
    have hl := scalar.length_eq
    refine ⟨compressed, ?_, network, rfl, ⟨scalar, compressed⟩, ⟨?_, rfl⟩, rfl⟩
    · cases compressed
      · exact Or.inl ⟨congrArg (· + 1) hl, rfl⟩
      · refine Or.inr ⟨congrArg (· + 1) (PrivateKey.length_marked scalar _), ?_, rfl⟩
        exact PrivateKey.getD_marked scalar _
    · cases compressed
      · exact (List.take_of_length_le hl.le).symm
      · exact (PrivateKey.take_marked scalar _).symm

/-- A key is read from the text written for it alone, blanks around it aside. -/
theorem decode_eq_ok_iff (text : String) (key : PrivateKey) (network : Network) :
    decode text = .ok (key, network) ↔ Text.trimBlank text = encode key network := by
  have hwritten : encode key network =
      Base58.checkEncode none (network.wifVersion.toByte :: key.toRaw) := rfl
  rw [decode, hwritten, ← Base58.checkDecode_eq_ok_iff]
  cases Base58.checkDecode text with
  | error fault => simp
  | ok payload => simp only [ofPayload_eq_ok_iff, Except.ok.injEq]

theorem trimBlank_encode (key : PrivateKey) (network : Network) :
    Text.trimBlank (encode key network) = encode key network :=
  Base58.trimBlank_checkEncode _ _

theorem decode_encode (key : PrivateKey) (network : Network) :
    decode (encode key network) = .ok (key, network) :=
  (decode_eq_ok_iff ..).mpr (trimBlank_encode key network)

theorem isSymbol_encode (key : PrivateKey) (network : Network) :
    ∀ c ∈ (encode key network).toList, Base58.isSymbol c = true :=
  Base58.isSymbol_encodeBytes _

theorem isAscii_encode (key : PrivateKey) (network : Network) :
    Text.IsAscii (encode key network).toList := fun c hc =>
  Base58.lt_128_of_isSymbol (isSymbol_encode key network c hc)

/-- The version byte and the 36 or 37 bytes of the raw form and the checksum behind it. -/
theorem exists_written (key : PrivateKey) (network : Network) :
    ∃ rest, encode key network = Base58.encodeBytes (network.wifVersion.toByte :: rest) ∧
      rest.length = if key.compressed then 37 else 36 := by
  refine ⟨key.toRaw ++ (Hash.checksum (network.wifVersion.toByte :: key.toRaw)).toBytes, rfl, ?_⟩
  rw [List.length_append, PrivateKey.length_toRaw,
    (Hash.checksum (network.wifVersion.toByte :: key.toRaw)).length_eq]
  split_ifs
  · rfl
  · rfl

theorem toByte_wifVersion_ne_zero (network : Network) : network.wifVersion.toByte ≠ 0 := by
  cases network <;> decide

/-- The version byte is not zero, so bounds on the number give the length. -/
theorem length_encode (key : PrivateKey) (network : Network) :
    (encode key network).toList.length = if key.compressed then 52 else 51 := by
  obtain ⟨rest, hwritten, hlength⟩ := exists_written key network
  rw [hwritten]
  cases hc : key.compressed
  · rw [hc] at hlength
    refine Base58.length_encodeBytes _ rest 50 ?_ ?_
    · rw [hlength]
      cases network <;> decide
    · rw [hlength]
      cases network <;> decide
  · rw [hc] at hlength
    refine Base58.length_encodeBytes _ rest 51 ?_ ?_
    · rw [hlength]
      cases network <;> decide
    · rw [hlength]
      cases network <;> decide

/-- The version byte leaves only letters for the first symbol, or for the second one behind '5'.
Only for an uncompressed key on the test network both may be digits. -/
theorem exists_letter_encode (key : PrivateKey) (network : Network)
    (h : network = .bitcoin ∨ key.compressed = true) :
    ∃ c ∈ (encode key network).toList, c.isDigit = false := by
  obtain ⟨rest, hwritten, hlength⟩ := exists_written key network
  have hversion := toByte_wifVersion_ne_zero network
  rw [hwritten]
  cases hc : key.compressed
  · rw [hc] at hlength h
    -- the first two digits together are 248 to 250, so the second one is a letter
    obtain rfl : network = .bitcoin := h.resolve_right Bool.false_ne_true
    refine Base58.exists_letter _ rest 49 248 251 hversion ?_ ?_ ?_
    · rw [hlength]
      decide
    · rw [hlength]
      decide
    · intro q hlow hhigh
      omega
  · rw [hc] at hlength
    cases network
    · refine Base58.exists_letter _ rest 51 18 20 hversion ?_ ?_ ?_
      · rw [hlength]
        decide
      · rw [hlength]
        decide
      · intro q hlow hhigh
        omega
    · refine Base58.exists_letter _ rest 51 35 36 hversion ?_ ?_ ?_
      · rw [hlength]
        decide
      · rw [hlength]
        decide
      · intro q hlow hhigh
        omega

/-- Keys on networks and the texts written for them determine each other: any scalar, flag and
network is read back, and a text that is read is, blanks around it apart, the one written. -/
theorem text_determines_key (text : String) (key : PrivateKey) (network : Network) :
    (decode text = .ok (key, network) ↔ Text.trimBlank text = encode key network) ∧
      decode (encode key network) = .ok (key, network) := by
  exact ⟨decode_eq_ok_iff text key network, decode_encode key network⟩

end BitcoinKeys.Wif
