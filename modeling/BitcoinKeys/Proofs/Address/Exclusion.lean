import BitcoinKeys.Proofs.Address.Form
import BitcoinKeys.Proofs.Wif

/-! No text is both an address and a private key. Without the blanks around it an address has at most 42
characters and a key in wallet import format at least 51. -/
namespace BitcoinKeys.Address

/-- Either case of an address in Bech32 has 42 characters, and the blanks around one in Base58 do
not count. -/
theorem length_trimBlank_of_isValid {text : String} (h : isValid text = true) :
    (Text.trimBlank text).toList.length ≤ 42 := by
  rcases (isValid_iff text).mp h with
    ⟨hash, network, address, hwritten, htext⟩ | ⟨hash, network, hwritten⟩
  · have hlength : text.toList.length = address.toList.length := by
      rcases htext with rfl | rfl
      · rfl
      · rw [Text.toList_upper, List.length_map]
    calc (Text.trimBlank text).toList.length ≤ text.toList.length := Text.length_trimBlank_le text
      _ = 42 := hlength.trans (length_of_bech32OfHash hwritten)
  · rw [← hwritten]
    exact (length_base58OfHash_le hash network).trans (by decide)

/-- A key that is not compressed takes 51 symbols, any other key 52. -/
theorem length_trimBlank_of_wif {text : String} {key : PrivateKey} {network : Network}
    (h : Wif.decode text = .ok (key, network)) : 51 ≤ (Text.trimBlank text).toList.length := by
  rw [(Wif.decode_eq_ok_iff ..).mp h, Wif.length_encode]
  split_ifs
  · decide
  · decide

/-- The lengths alone keep keys and addresses apart. -/
theorem isValid_eq_false_of_wif {text : String} {key : PrivateKey} {network : Network}
    (h : Wif.decode text = .ok (key, network)) : isValid text = false := by
  apply Bool.eq_false_iff.mpr
  intro hvalid
  have hshort := length_trimBlank_of_isValid hvalid
  have hlong := length_trimBlank_of_wif h
  omega

theorem exists_error_of_isValid {text : String} (hvalid : isValid text = true) :
    ∃ error, Wif.decode text = .error error := by
  cases hread : Wif.decode text with
  | error error => exact ⟨error, rfl⟩
  | ok read =>
    rw [isValid_eq_false_of_wif hread] at hvalid
    cases hvalid

/-- Keys and addresses cannot be mistaken for one another: no text is read as both, a written key
is no address, and a written address, in upper case as well, is no key. -/
theorem wif_and_addresses_are_disjoint :
    (∀ text, ¬ ((∃ key network, Wif.decode text = .ok (key, network)) ∧ isValid text = true)) ∧
      (∀ key network, isValid (Wif.encode key network) = false) ∧
      (∀ hash kind network, ∃ address, ofHash160 hash kind network = .ok address ∧
        ∃ error, Wif.decode address = .error error) ∧
      ∀ hash network, ∃ address, ofHash160 hash .p2wpkh network = .ok address ∧
        ∃ error, Wif.decode (Text.upper address) = .error error := by
  refine ⟨?_, ?_, ?_, ?_⟩
  · rintro text ⟨⟨key, network, hread⟩, hvalid⟩
    rw [isValid_eq_false_of_wif hread] at hvalid
    cases hvalid
  · intro key network
    exact isValid_eq_false_of_wif (Wif.decode_encode key network)
  · intro hash kind network
    obtain ⟨address, hwritten⟩ := exists_ofHash160 hash kind network
    exact ⟨address, hwritten, exists_error_of_isValid (isValid_of_ofHash160 hwritten)⟩
  · intro hash network
    obtain ⟨address, hwritten⟩ := exists_ofHash160 hash .p2wpkh network
    have hvalid : isValid (Text.upper address) = true :=
      (isValid_iff _).mpr (Or.inl ⟨hash, network, address, hwritten, Or.inr rfl⟩)
    exact ⟨address, hwritten, exists_error_of_isValid hvalid⟩

end BitcoinKeys.Address
