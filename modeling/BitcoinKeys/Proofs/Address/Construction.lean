import BitcoinKeys.Proofs.Address
import BitcoinKeys.Proofs.PublicKey.Derivation
import BitcoinKeys.Proofs.Wif

/-! The ways to an address: from a key in wallet import format, from a phrase, from a public key and
from a hash. Where they start from the same key they end at the same text. -/
namespace BitcoinKeys.Address

/-- The text hands on the flag and the network, so nothing about the key is lost on the way. -/
theorem ofWif_encode (key : PrivateKey) (kind : AddressKind) (network : Network) :
    ofWif (Wif.encode key network) kind = ofPrivateKey key kind network := by
  rw [ofWif, Wif.decode_encode]
  rfl

/-- Zero and everything from the order on have no address, and the error says so. -/
theorem ofPrivateKey_of_not_isScalar {key : PrivateKey}
    (hinvalid : Curve.isScalar key.scalar.toNat = false) (kind : AddressKind) (network : Network) :
    ofPrivateKey key kind network = .error (.invalidFormat .scalarRange) := by
  rw [ofPrivateKey, PublicKey.derive_of_not_isScalar hinvalid]
  rfl

/-- What holds of the text of a public key: every way of writing it gives the text, and reading
the text gives the network and the hash. -/
structure IsAddressOf (key : PublicKey) (kind : AddressKind) (network : Network) (text : String) :
    Prop where
  encoded : encode ⟨key, kind, network⟩ = .ok text
  of_hash : ofHash160 key.hash160 kind network = .ok text
  direct : match kind with
    | .p2pkh => p2pkh key network = text
    | .p2wpkh => p2wpkh key network = .ok text
  valid : isValid text = true
  read : match kind with
    | .p2pkh => Base58.checkDecode text = .ok (network.addressVersion.toByte :: key.hash160.toBytes)
    | .p2wpkh => Bech32.decodeAddress text = .ok (network, key.hash160.toBytes)

/-- A public key always has an address: only the scalar of a private key can be at fault. -/
theorem exists_isAddressOf (key : PublicKey) (kind : AddressKind) (network : Network) :
    ∃ text, IsAddressOf key kind network text := by
  obtain ⟨text, hwritten⟩ := exists_ofHash160 key.hash160 kind network
  have hencoded : encode ⟨key, kind, network⟩ = .ok text :=
    (encode_eq_ofHash160 ⟨key, kind, network⟩).trans hwritten
  have hvalid : isValid text = true := isValid_of_ofHash160 hwritten
  refine ⟨text, hencoded, hwritten, ?direct, hvalid, ?read⟩
  case direct =>
    rcases ofHash160_cases hwritten with ⟨rfl, rfl⟩ | ⟨rfl, hbech32⟩
    · rfl
    · exact hbech32
  case read =>
    rcases ofHash160_cases hwritten with ⟨rfl, rfl⟩ | ⟨rfl, hbech32⟩
    · exact checkDecode_base58OfHash key.hash160 network
    · exact decodeAddress_of_bech32OfHash hbech32

/-- A key in wallet import format and a phrase have the address of the public key that is derived,
or the error of the derivation. Every public key has an address, the same by each way of writing
it, and it tells the network and the hash. -/
theorem constructions_agree :
    (∀ (key : PrivateKey) (kind : AddressKind) (network : Network),
      ofWif (Wif.encode key network) kind =
          (PublicKey.derive key >>= fun publicKey => encode ⟨publicKey, kind, network⟩) ∧
        (¬(0 < key.scalar.toNat ∧ key.scalar.toNat < Curve.order) →
          ofWif (Wif.encode key network) kind = .error (.invalidFormat .scalarRange))) ∧
      (∀ (key : PublicKey) (kind : AddressKind) (network : Network),
        ∃ text, IsAddressOf key kind network text) ∧
      ∀ (phrase : String) (kind : AddressKind) (network : Network),
        ofPhrase phrase kind network =
          ofWif (Wif.encode (PrivateKey.ofPhrase phrase) network) kind := by
  refine ⟨?_, exists_isAddressOf, ?_⟩
  · intro key kind network
    rw [ofWif_encode]
    refine ⟨rfl, ?_⟩
    intro houtside
    rw [← Curve.isScalar_iff] at houtside
    exact ofPrivateKey_of_not_isScalar (Bool.eq_false_iff.mpr houtside) kind network
  · intro phrase kind network
    rw [ofWif_encode, ofPhrase]

end BitcoinKeys.Address
