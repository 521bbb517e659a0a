import BitcoinKeys.Proofs.Address
import BitcoinKeys.Proofs.Vanity.Pattern

/-! The first characters and the length of addresses. They follow from the version alone, whatever hash
and checksum stand behind it, and leave room for exactly the patterns that a search accepts. -/
namespace BitcoinKeys.Address

/-- The hash and the checksum behind the version byte have 24 bytes. -/
theorem exists_written (hash : FixedBytes 20) (network : Network) :
    ∃ rest, base58OfHash hash network =
        Base58.encodeBytes (network.addressVersion.toByte :: rest) ∧ rest.length = 24 := by
  let payload := network.addressVersion.toByte :: hash.toBytes
  refine ⟨hash.toBytes ++ (Hash.checksum payload).toBytes, rfl, ?_⟩
  rw [List.length_append, hash.length_eq, (Hash.checksum payload).length_eq]

/-- The version zero is written as '1', and 24 bytes take at most 33 symbols. -/
theorem exists_tail_of_bitcoin (hash : FixedBytes 20) :
    ∃ tail, (base58OfHash hash .bitcoin).toList = '1' :: tail ∧ tail.length ≤ 33 := by
  obtain ⟨rest, hwritten, hlength⟩ := exists_written hash .bitcoin
  refine ⟨(Base58.encodeBytes rest).toList, ?_, ?_⟩
  · rw [hwritten]
    exact Base58.toList_encodeBytes_zero rest
  · apply Base58.length_encodeBytes_le
    rw [hlength]
    decide

/-- The version 111 makes the number so large that it has 34 digits in base 58, and leaves two of
them for the first. -/
theorem exists_tail_of_testnet (hash : FixedBytes 20) :
    ∃ first tail, (base58OfHash hash .testnet).toList = first :: tail ∧
      (first = 'm' ∨ first = 'n') ∧ tail.length = 33 := by
  obtain ⟨rest, hwritten, hlength⟩ := exists_written hash .testnet
  -- with this version the number is at least 44 times and less than 46 times the power
  have hlow : 44 * 58 ^ 33 ≤ Network.testnet.addressVersion.toByte.toNat * 256 ^ rest.length := by
    rw [hlength]
    decide
  have hhigh : (Network.testnet.addressVersion.toByte.toNat + 1) * 256 ^ rest.length ≤
      46 * 58 ^ 33 := by
    rw [hlength]
    decide
  obtain ⟨v, tail, habove, hbelow, htail, htext⟩ := Base58.exists_first_symbol
    Network.testnet.addressVersion.toByte rest 33 44 46 (by decide) (by decide) hlow hhigh
  refine ⟨Base58.digit v, tail, ?_, ?_, htail⟩
  · rw [hwritten, htext]
  · obtain rfl | rfl : v = 44 ∨ v = 45 := by omega
    · exact Or.inl rfl
    · exact Or.inr rfl

theorem length_base58OfHash_le (hash : FixedBytes 20) (network : Network) :
    (base58OfHash hash network).toList.length ≤ 34 := by
  cases network with
  | bitcoin =>
    obtain ⟨tail, htext, htail⟩ := exists_tail_of_bitcoin hash
    rw [htext, List.length_cons]
    omega
  | testnet =>
    obtain ⟨first, tail, htext, -, htail⟩ := exists_tail_of_testnet hash
    rw [htext, List.length_cons, htail]

theorem isAscii_base58OfHash (hash : FixedBytes 20) (network : Network) :
    Text.IsAscii (base58OfHash hash network).toList := by
  obtain ⟨rest, hwritten, -⟩ := exists_written hash network
  intro c hc
  rw [hwritten] at hc
  exact Base58.lt_128_of_isSymbol (Base58.isSymbol_encodeBytes _ c hc)

theorem length_of_bech32OfHash {hash : FixedBytes 20} {network : Network} {address : String}
    (h : bech32OfHash hash network = .ok address) : address.toList.length = 42 :=
  Bech32.length_of_encodeAddress ((bech32OfHash_eq_ok_iff ..).mp h)

theorem isAscii_of_bech32OfHash {hash : FixedBytes 20} {network : Network} {address : String}
    (h : bech32OfHash hash network = .ok address) : Text.IsAscii address.toList := by
  have hwritten := (bech32OfHash_eq_ok_iff ..).mp h
  have hprintable := Bech32.isPrintable_of_encode ((Bech32.encodeAddress_eq_ok_iff ..).mp hwritten).2
  intro c hc
  exact Nat.lt_of_le_of_lt (hprintable c hc).2 (by decide)

def HasForm (kind : AddressKind) (network : Network) (address : String) : Prop :=
  match kind, network with
  | .p2pkh, .bitcoin => "1".toList <+: address.toList ∧ address.toList.length ≤ 34
  | .p2pkh, .testnet =>
    ("m".toList <+: address.toList ∨ "n".toList <+: address.toList) ∧ address.toList.length = 34
  | .p2wpkh, .bitcoin =>
    "bc1q".toList <+: address.toList ∧ address.toList.length = 42 ∧
      ∀ c ∈ address.toList, c.isUpper = false
  | .p2wpkh, .testnet =>
    "tb1q".toList <+: address.toList ∧ address.toList.length = 42 ∧
      ∀ c ∈ address.toList, c.isUpper = false

theorem hasForm_base58OfHash (hash : FixedBytes 20) (network : Network) :
    HasForm .p2pkh network (base58OfHash hash network) := by
  have hlength := length_base58OfHash_le hash network
  cases network with
  | bitcoin =>
    obtain ⟨tail, htext, -⟩ := exists_tail_of_bitcoin hash
    refine ⟨?_, hlength⟩
    rw [htext]
    exact ⟨tail, rfl⟩
  | testnet =>
    obtain ⟨first, tail, htext, hfirst, htail⟩ := exists_tail_of_testnet hash
    rw [HasForm, htext, List.length_cons, htail]
    refine ⟨?_, rfl⟩
    rcases hfirst with rfl | rfl
    · exact Or.inl ⟨tail, rfl⟩
    · exact Or.inr ⟨tail, rfl⟩

theorem hasForm_of_bech32OfHash {hash : FixedBytes 20} {network : Network} {address : String}
    (h : bech32OfHash hash network = .ok address) : HasForm .p2wpkh network address := by
  have hwritten := (bech32OfHash_eq_ok_iff ..).mp h
  have hlower := Bech32.isUpper_of_encode ((Bech32.encodeAddress_eq_ok_iff ..).mp hwritten).2
  obtain ⟨tail, htext⟩ := Bech32.exists_tail_of_encodeAddress hwritten
  cases network with
  | bitcoin => exact ⟨⟨tail, htext.symm⟩, length_of_bech32OfHash h, hlower⟩
  | testnet => exact ⟨⟨tail, htext.symm⟩, length_of_bech32OfHash h, hlower⟩

/-- The form depends on the kind and the network only. -/
theorem hasForm_of_ofHash160 {hash : FixedBytes 20} {kind : AddressKind} {network : Network}
    {address : String} (h : ofHash160 hash kind network = .ok address) :
    HasForm kind network address := by
  rcases ofHash160_cases h with ⟨rfl, rfl⟩ | ⟨rfl, hwritten⟩
  · exact hasForm_base58OfHash hash network
  · exact hasForm_of_bech32OfHash hwritten

theorem isAscii_of_ofHash160 {hash : FixedBytes 20} {kind : AddressKind} {network : Network}
    {address : String} (h : ofHash160 hash kind network = .ok address) :
    Text.IsAscii address.toList := by
  rcases ofHash160_cases h with ⟨-, rfl⟩ | ⟨-, hwritten⟩
  · exact isAscii_base58OfHash hash network
  · exact isAscii_of_bech32OfHash hwritten

/-- Behind its fixed characters an address has no more than the longest pattern. -/
theorem length_le_of_hasForm {kind : AddressKind} {network : Network} {address : String}
    (h : HasForm kind network address) :
    address.toList.length ≤ kind.patternOffset + kind.patternMax := by
  -- 34 is one and 33, 42 is four and 38
  cases kind <;> cases network
  · exact h.2
  · exact h.2.le
  · exact h.2.1.le
  · exact h.2.1.le

/-- A pattern longer than the room behind the fixed characters is in no address. -/
theorem not_carries_of_ofHash160 {hash : FixedBytes 20} {kind : AddressKind} {network : Network}
    {address : String} (h : ofHash160 hash kind network = .ok address) {symbols : List Char}
    (hlong : kind.patternMax < symbols.length) : ¬ Vanity.Carries kind symbols address := by
  intro hcarries
  have hroom := Vanity.length_le_of_carries (isAscii_of_ofHash160 h) hcarries
  have hlength := length_le_of_hasForm (hasForm_of_ofHash160 h)
  omega

theorem toByte_addressVersion_injective :
    Function.Injective fun network : Network => network.addressVersion.toByte := by
  intro network network' h
  cases network <;> cases network'
  · rfl
  · cases h
  · cases h
  · rfl

theorem eq_of_base58OfHash_eq {hash hash' : FixedBytes 20} {network network' : Network}
    (h : base58OfHash hash network = base58OfHash hash' network') :
    hash = hash' ∧ network = network' := by
  have hread := checkDecode_base58OfHash hash network
  rw [h, checkDecode_base58OfHash hash' network', Except.ok.injEq, List.cons.injEq] at hread
  exact ⟨FixedBytes.ext_toBytes hread.2.symm, toByte_addressVersion_injective hread.1.symm⟩

theorem eq_of_bech32OfHash_eq {hash hash' : FixedBytes 20} {network network' : Network}
    (h : bech32OfHash hash network = bech32OfHash hash' network') :
    hash = hash' ∧ network = network' := by
  obtain ⟨address, hwritten⟩ := exists_ofHash160 hash .p2wpkh network
  have hread := decodeAddress_of_bech32OfHash hwritten
  rw [decodeAddress_of_bech32OfHash (h.symm.trans hwritten), Except.ok.injEq, Prod.mk.injEq] at hread
  exact ⟨FixedBytes.ext_toBytes hread.2.symm, hread.1.symm⟩

/-- The lengths 42 and at most 34 tell the kinds apart. -/
theorem bech32OfHash_ne_base58OfHash (hash hash' : FixedBytes 20) (network network' : Network) :
    bech32OfHash hash' network' ≠ .ok (base58OfHash hash network) := by
  intro h
  have hlong := length_of_bech32OfHash h
  have hshort := length_base58OfHash_le hash network
  omega

/-- The text tells the hash, the kind and the network. -/
theorem ofHash160_injective : Function.Injective fun written : FixedBytes 20 × AddressKind × Network =>
    ofHash160 written.1 written.2.1 written.2.2 := by
  rintro ⟨hash, kind, network⟩ ⟨hash', kind', network'⟩ h
  cases kind with
  | p2pkh =>
    cases kind' with
    | p2pkh =>
      obtain ⟨rfl, rfl⟩ := eq_of_base58OfHash_eq (Except.ok.inj h)
      rfl
    | p2wpkh => exact (bech32OfHash_ne_base58OfHash hash hash' network network' h.symm).elim
  | p2wpkh =>
    cases kind' with
    | p2pkh => exact (bech32OfHash_ne_base58OfHash hash' hash network' network h).elim
    | p2wpkh =>
      obtain ⟨rfl, rfl⟩ := eq_of_bech32OfHash_eq h
      rfl

/-- Every hash is written in the form of its kind and network, so nothing longer than a pattern fits
behind the fixed characters, and no two hashes, kinds or networks share an address. -/
theorem addresses_have_form :
    (∀ (hash : FixedBytes 20) (kind : AddressKind) (network : Network), ∃ address,
      ofHash160 hash kind network = .ok address ∧ HasForm kind network address ∧
        ∀ symbols : List Char, kind.patternMax < symbols.length →
          ¬ Vanity.Carries kind symbols address) ∧
      Function.Injective fun written : FixedBytes 20 × AddressKind × Network =>
        ofHash160 written.1 written.2.1 written.2.2 := by
  refine ⟨?_, ofHash160_injective⟩
  intro hash kind network
  obtain ⟨address, hwritten⟩ := exists_ofHash160 hash kind network
  refine ⟨address, hwritten, hasForm_of_ofHash160 hwritten, ?_⟩
  intro symbols hlong
  exact not_carries_of_ofHash160 hwritten hlong

end BitcoinKeys.Address
