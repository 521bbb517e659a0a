import BitcoinKeys.Address
import BitcoinKeys.Proofs.Base58Check
import BitcoinKeys.Proofs.Bech32.Address
import BitcoinKeys.Proofs.PublicKey

/-! Validation of addresses. It accepts what is written for some hash on some network and nothing else. -/
namespace BitcoinKeys.Address

/-- Twenty-one bytes with the version of a network in front, which is all that the payload of an
address can be. -/
theorem isVersionedHash_iff (payload : Bytes) :
    isVersionedHash payload = true ↔
      ∃ (hash : FixedBytes 20) (network : Network),
        payload = network.addressVersion.toByte :: hash.toBytes := by
  rw [isVersionedHash, Bool.and_eq_true, Bool.or_eq_true, decide_eq_true_iff, decide_eq_true_iff,
    decide_eq_true_iff]
  constructor
  · rintro ⟨hlength, hversion⟩
    cases payload with
    | nil => cases hlength
    | cons version rest =>
      rw [List.headD_cons] at hversion
      have hrest : rest.length = 20 := Nat.succ.inj hlength
      rcases hversion with rfl | rfl
      · exact ⟨⟨rest, hrest⟩, .bitcoin, rfl⟩
      · exact ⟨⟨rest, hrest⟩, .testnet, rfl⟩
  · rintro ⟨hash, network, rfl⟩
    refine ⟨congrArg (· + 1) hash.length_eq, ?_⟩
    cases network
    · exact Or.inl rfl
    · exact Or.inr rfl

/-- Blanks around the text are skipped, so it is the trimmed text that has to be the written
one. -/
theorem base58_isValid_iff (text : String) :
    (match Base58.checkDecode text with
      | .ok payload => isVersionedHash payload
      | .error _ => false) = true ↔
      ∃ hash network, base58OfHash hash network = Text.trimBlank text := by
  have hwritten (hash : FixedBytes 20) (network : Network) :
      base58OfHash hash network = Text.trimBlank text ↔
        Base58.checkDecode text = .ok (network.addressVersion.toByte :: hash.toBytes) := by
    rw [Base58.checkDecode_eq_ok_iff, eq_comm]
    rfl
  simp only [hwritten]
  cases Base58.checkDecode text with
  | error fault => simp
  | ok payload => simp only [isVersionedHash_iff, Except.ok.injEq]

theorem bech32OfHash_eq_ok_iff (hash : FixedBytes 20) (network : Network) (address : String) :
    bech32OfHash hash network = .ok address ↔
      Bech32.encodeAddress hash.toBytes network = .ok address := by
  rw [bech32OfHash]
  cases Bech32.encodeAddress hash.toBytes network with
  | error fault => simp
  | ok written => simp

/-- No blank is skipped here, but the whole text may be in upper case. -/
theorem bech32_isValid_iff (text : String) :
    (Bech32.decodeAddress text).toBool = true ↔
      ∃ hash network address, bech32OfHash hash network = .ok address ∧
        (text = address ∨ text = Text.upper address) := by
  rw [toBool_eq_true_iff]
  constructor
  · rintro ⟨⟨network, program⟩, h⟩
    obtain ⟨address, hwritten, htext⟩ := (Bech32.decodeAddress_eq_ok_iff ..).mp h
    have hlength := ((Bech32.encodeAddress_eq_ok_iff ..).mp hwritten).1
    exact ⟨⟨program, hlength⟩, network, address, (bech32OfHash_eq_ok_iff ..).mpr hwritten, htext⟩
  · rintro ⟨hash, network, address, hwritten, htext⟩
    refine ⟨(network, hash.toBytes), ?_⟩
    exact (Bech32.decodeAddress_eq_ok_iff ..).mpr
      ⟨address, (bech32OfHash_eq_ok_iff ..).mp hwritten, htext⟩

/-- Both ways in which a text can be valid. -/
theorem isValid_iff (text : String) :
    isValid text = true ↔
      (∃ hash network address, bech32OfHash hash network = .ok address ∧
        (text = address ∨ text = Text.upper address)) ∨
        ∃ hash network, base58OfHash hash network = Text.trimBlank text := by
  rw [isValid, Bool.or_eq_true]
  exact or_congr (bech32_isValid_iff text) (base58_isValid_iff text)

/-- The valid texts are the written addresses: in Base58 between blanks, in Bech32 without blanks
and in lower or in upper case. -/
theorem isValid_iff_written (text : String) :
    isValid text = true ↔
      ∃ (hash : FixedBytes 20) (network : Network),
        ofHash160 hash .p2pkh network = .ok (Text.trimBlank text) ∨
          ∃ address, ofHash160 hash .p2wpkh network = .ok address ∧
            (text = address ∨ text = Text.upper address) := by
  simp only [ofHash160, Except.ok.injEq]
  rw [isValid_iff]
  constructor
  · rintro (⟨hash, network, h⟩ | ⟨hash, network, h⟩)
    · exact ⟨hash, network, Or.inr h⟩
    · exact ⟨hash, network, Or.inl h⟩
  · rintro ⟨hash, network, h | h⟩
    · exact Or.inr ⟨hash, network, h⟩
    · exact Or.inl ⟨hash, network, h⟩

theorem checkDecode_base58OfHash (hash : FixedBytes 20) (network : Network) :
    Base58.checkDecode (base58OfHash hash network) =
      .ok (network.addressVersion.toByte :: hash.toBytes) :=
  Base58.checkDecode_checkEncode _ _

theorem trimBlank_base58OfHash (hash : FixedBytes 20) (network : Network) :
    Text.trimBlank (base58OfHash hash network) = base58OfHash hash network :=
  Base58.trimBlank_checkEncode _ _

theorem decodeAddress_of_bech32OfHash {hash : FixedBytes 20} {network : Network} {address : String}
    (h : bech32OfHash hash network = .ok address) :
    Bech32.decodeAddress address = .ok (network, hash.toBytes) := by
  have hwritten := (bech32OfHash_eq_ok_iff ..).mp h
  exact (Bech32.decodeAddress_eq_ok_iff ..).mpr ⟨address, hwritten, Or.inl rfl⟩

/-- Taking a text that was written apart by the kind of the address. -/
theorem ofHash160_cases {hash : FixedBytes 20} {kind : AddressKind} {network : Network}
    {address : String} (h : ofHash160 hash kind network = .ok address) :
    (kind = .p2pkh ∧ address = base58OfHash hash network) ∨
      (kind = .p2wpkh ∧ bech32OfHash hash network = .ok address) := by
  cases kind with
  | p2pkh => exact Or.inl ⟨rfl, (Except.ok.inj h).symm⟩
  | p2wpkh => exact Or.inr ⟨rfl, h⟩

/-- What is written for a hash is valid. -/
theorem isValid_of_ofHash160 {hash : FixedBytes 20} {kind : AddressKind} {network : Network}
    {address : String} (h : ofHash160 hash kind network = .ok address) : isValid address = true := by
  apply (isValid_iff address).mpr
  rcases ofHash160_cases h with ⟨-, rfl⟩ | ⟨-, hwritten⟩
  · exact Or.inr ⟨hash, network, (trimBlank_base58OfHash hash network).symm⟩
  · exact Or.inl ⟨hash, network, address, hwritten, Or.inl rfl⟩

/-- Every hash can be written. -/
theorem exists_ofHash160 (hash : FixedBytes 20) (kind : AddressKind) (network : Network) :
    ∃ address, ofHash160 hash kind network = .ok address := by
  cases kind with
  | p2pkh => exact ⟨_, rfl⟩
  | p2wpkh =>
    obtain ⟨address, hwritten⟩ := Bech32.exists_encodeAddress hash.toBytes network hash.length_eq
    exact ⟨address, (bech32OfHash_eq_ok_iff ..).mpr hwritten⟩

/-- The text of an address depends on the key only by its hash. -/
theorem encode_eq_ofHash160 (address : Address) :
    address.encode = ofHash160 address.key.hash160 address.kind address.network := by
  obtain ⟨key, kind, network⟩ := address
  cases kind
  · rfl
  · rfl

theorem exists_encode (address : Address) : ∃ text, address.encode = .ok text := by
  rw [encode_eq_ofHash160]
  exact exists_ofHash160 ..

theorem ofPrivateKey_eq_ok_iff (key : PrivateKey) (kind : AddressKind) (network : Network)
    (text : String) : ofPrivateKey key kind network = .ok text ↔
      ∃ publicKey, PublicKey.derive key = .ok publicKey ∧
        encode ⟨publicKey, kind, network⟩ = .ok text :=
  bind_eq_ok_iff ..

theorem exists_ofPrivateKey (key : PrivateKey) (hscalar : Curve.isScalar key.scalar.toNat = true)
    (kind : AddressKind) (network : Network) :
    ∃ text, ofPrivateKey key kind network = .ok text := by
  obtain ⟨publicKey, hderived⟩ := PublicKey.exists_derive hscalar
  obtain ⟨text, hwritten⟩ := exists_encode ⟨publicKey, kind, network⟩
  exact ⟨text, (ofPrivateKey_eq_ok_iff ..).mpr ⟨publicKey, hderived, hwritten⟩⟩

end BitcoinKeys.Address
