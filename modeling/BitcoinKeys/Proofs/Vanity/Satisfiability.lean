import BitcoinKeys.Proofs.Address.Form

/-! Which patterns some Bech32 address has. The characters behind the version are the program and then the
checksum, and the program can be any 32 symbols, so only the checksum keeps a pattern from being found. -/
namespace BitcoinKeys.Vanity

open Bech32 (Symbol symbol? symbol?_eq_some_iff programSymbols)

/-- A pattern is accepted for its length and its characters. -/
theorem Pattern.exists_ofText_iff (text : String) (kind : AddressKind) :
    (∃ pattern, ofText text kind = .ok pattern) ↔
      text ≠ "" ∧ text.toList.length ≤ kind.patternMax ∧
        ∀ c ∈ text.toList, kind.isSymbol c = true := by
  constructor
  · rintro ⟨pattern, h⟩
    obtain ⟨hsymbols, rfl⟩ := ofText_eq_ok h
    rw [← hsymbols]
    refine ⟨?_, pattern.length_le, List.all_eq_true.mp pattern.all_symbols⟩
    rintro rfl
    exact pattern.nonempty hsymbols
  · rintro ⟨hne, hlength, hsymbols⟩
    have hempty : ¬text.toList = [] := mt String.toList_eq_nil_iff.mp hne
    simp only [ofText, dif_neg hempty, dif_pos hlength]
    split
    case h_1 character hfound =>
      have hunknown := List.find?_some hfound
      rw [hsymbols character (List.mem_of_find?_eq_some hfound)] at hunknown
      cases hunknown
    case h_2 => exact ⟨_, rfl⟩

theorem isSymbol_p2wpkh_iff (c : Char) :
    AddressKind.isSymbol .p2wpkh c = true ↔ ∃ symbol : Symbol, c.toLower = symbol.char := by
  simp only [AddressKind.isSymbol, Option.isSome_iff_exists, symbol?_eq_some_iff]

theorem toLower_char : ∀ symbol : Symbol, symbol.char.toLower = symbol.char := by decide

/-- Characters are symbols exactly if their lower case form is written for some. -/
theorem exists_symbols_iff (characters : List Char) :
    (∀ c ∈ characters, AddressKind.isSymbol .p2wpkh c = true) ↔
      ∃ symbols : List Symbol, characters.map Char.toLower = symbols.map Symbol.char := by
  constructor
  · intro h
    induction characters with
    | nil => exact ⟨[], rfl⟩
    | cons c characters ih =>
      obtain ⟨hc, hcharacters⟩ := List.forall_mem_cons.mp h
      obtain ⟨symbol, hsymbol⟩ := (isSymbol_p2wpkh_iff c).mp hc
      obtain ⟨symbols, hsymbols⟩ := ih hcharacters
      refine ⟨symbol :: symbols, ?_⟩
      rw [List.map_cons, List.map_cons, hsymbol, hsymbols]
  · rintro ⟨symbols, h⟩ c hc
    apply (isSymbol_p2wpkh_iff c).mpr
    exact Bech32.exists_symbol_of_mem h hc

def fixedCharacters (network : Network) : List Char :=
  network.humanReadablePart.toList ++ ['1', 'q']

theorem byteCount_fixedCharacters (network : Network) :
    Text.byteCount (fixedCharacters network) = AddressKind.patternOffset .p2wpkh := by
  cases network <;> decide

theorem length_fixedCharacters (network : Network) : (fixedCharacters network).length = 4 := by
  cases network <;> decide

/-- An address is fixed characters, 32 symbols of the hash and six of the checksum. -/
theorem exists_checksum_of_ofHash160 {hash : FixedBytes 20} {network : Network} {address : String}
    (h : Address.ofHash160 hash .p2wpkh network = .ok address) :
    ∃ checksum : List Symbol, checksum.length = 6 ∧
      address.toList =
        fixedCharacters network ++ (programSymbols hash.toBytes ++ checksum).map Symbol.char := by
  have hwritten := Bech32.toList_of_encodeAddress ((Address.bech32OfHash_eq_ok_iff ..).mp h)
  refine ⟨Bech32.checksum network.humanReadablePart.toList (0 :: programSymbols hash.toBytes),
    Bech32.length_checksum .., ?_⟩
  rw [hwritten, fixedCharacters, List.append_assoc]
  rfl

/-- What some address has behind its fixed characters is accepted as a pattern. -/
theorem exists_ofText_of_prefix {text : String} {hash : FixedBytes 20} {network : Network}
    {address : String} (hne : text ≠ "")
    (h : Address.ofHash160 hash .p2wpkh network = .ok address)
    (hfront : text.toList.map Char.toLower <+: (address.toList.drop 4).map Char.toLower) :
    ∃ pattern, Pattern.ofText text .p2wpkh = .ok pattern := by
  obtain ⟨checksum, hchecksum, haddress⟩ := exists_checksum_of_ofHash160 h
  rw [haddress, List.drop_left' (length_fixedCharacters network)] at hfront
  apply (Pattern.exists_ofText_iff text .p2wpkh).mpr
  refine ⟨hne, ?_, ?_⟩
  · have hlength := hfront.length_le
    rw [List.length_map, List.length_map, List.length_map, List.length_append,
      Bech32.length_programSymbols, hchecksum] at hlength
    exact hlength
  · intro c hc
    apply (isSymbol_p2wpkh_iff c).mpr
    -- every character behind the fixed ones is written for a symbol
    have hmem := hfront.subset (List.mem_map_of_mem hc)
    rw [List.map_map] at hmem
    obtain ⟨symbol, -, hsymbol⟩ := List.mem_map.mp hmem
    exact ⟨symbol, hsymbol.symm.trans (toLower_char symbol)⟩

/-- The symbols of a short pattern can stand in the program. -/
theorem exists_carries (network : Network) {characters : List Char}
    (hsymbols : ∀ c ∈ characters, AddressKind.isSymbol .p2wpkh c = true)
    (hlength : characters.length ≤ 32) :
    ∃ hash address, Address.ofHash160 hash .p2wpkh network = .ok address ∧
      Carries .p2wpkh characters address := by
  obtain ⟨symbols, hlower⟩ := (exists_symbols_iff characters).mp hsymbols
  have hcount := Bech32.length_of_lower_symbols hlower
  -- zeros fill the program up
  have hfilled : (symbols ++ List.replicate (32 - symbols.length) 0).length = 32 := by
    rw [List.length_append, List.length_replicate]
    omega
  obtain ⟨hash, hprogram⟩ := Bech32.exists_programSymbols _ hfilled
  obtain ⟨address, hwritten⟩ := Address.exists_ofHash160 hash .p2wpkh network
  obtain ⟨checksum, -, haddress⟩ := exists_checksum_of_ofHash160 hwritten
  refine ⟨hash, address, hwritten, fixedCharacters network, symbols.map Symbol.char,
    (List.replicate (32 - symbols.length) 0 ++ checksum).map Symbol.char, ?_,
    byteCount_fixedCharacters network, ?_, ?_⟩
  · rw [haddress, hprogram, List.append_assoc, List.append_assoc, List.map_append]
  · have hascii : Text.IsAscii (symbols.map Symbol.char) := by
      intro c hc
      obtain ⟨symbol, -, rfl⟩ := List.mem_map.mp hc
      exact Bech32.char_lt_128 symbol
    rw [Text.byteCount_of_ascii _ hascii,
      Text.byteCount_of_ascii _ (Bech32.isAscii_of_lower_symbols hlower), List.length_map, hcount]
  · rw [hlower, List.map_map]
    exact List.map_congr_left fun symbol _ => toLower_char symbol

/-- What an address has behind its fixed characters is accepted as a pattern, in any case. A
pattern that is accepted and fits in the program is had by some address of either network; only a
longer one may ask for a checksum that does not belong to its program. -/
theorem accepts_satisfiable_patterns :
    (∀ text network hash address, text ≠ "" →
        Address.ofHash160 hash .p2wpkh network = .ok address →
        text.toList.map Char.toLower <+: (address.toList.drop 4).map Char.toLower →
        ∃ pattern, Pattern.ofText text .p2wpkh = .ok pattern) ∧
      ∀ text pattern network, Pattern.ofText text .p2wpkh = .ok pattern →
        text.toList.length ≤ 32 →
        ∃ hash address, Address.ofHash160 hash .p2wpkh network = .ok address ∧
          pattern.isIn address = true := by
  constructor
  · intro text network hash address hne h hfront
    exact exists_ofText_of_prefix hne h hfront
  · intro text pattern network h hlength
    obtain ⟨hsymbols, hkind⟩ := Pattern.ofText_eq_ok h
    obtain ⟨-, -, hall⟩ := (Pattern.exists_ofText_iff text .p2wpkh).mp ⟨pattern, h⟩
    obtain ⟨hash, address, hwritten, hcarries⟩ := exists_carries network hall hlength
    refine ⟨hash, address, hwritten, (isIn_iff_carries pattern address).mpr ?_⟩
    rw [hkind, hsymbols]
    exact hcarries

/-- All 38 characters of an address are accepted in upper case, and the 32 of its program, in both
cases, are had on the other network as well. -/
theorem accepts_program_in_both_cases :
    let address := "bc1qw508d6qejxtdg4y5r3zarvary0c5xw7kv8f3t4"
    let program : Pattern :=
      ⟨"W508D6QEJXTDG4Y5r3zarvary0c5xw7k".toList, .p2wpkh, by decide, by decide, by decide⟩
    (Address.ofHash160 (.ofNat 20 0x751e76e8199196d454941c45d1b3a323f1433bd6) .p2wpkh .bitcoin =
        .ok address ∧
      ∃ pattern, Pattern.ofText "W508D6QEJXTDG4Y5R3ZARVARY0C5XW7KV8F3T4" .p2wpkh = .ok pattern) ∧
      Pattern.ofText "W508D6QEJXTDG4Y5r3zarvary0c5xw7k" .p2wpkh = .ok program ∧
      ∃ hash address, Address.ofHash160 hash .p2wpkh .testnet = .ok address ∧
        program.isIn address = true := by
  intro address program
  obtain ⟨hcomplete, hsound⟩ := accepts_satisfiable_patterns
  have hwritten : Address.ofHash160 (.ofNat 20 0x751e76e8199196d454941c45d1b3a323f1433bd6) .p2wpkh
      .bitcoin = .ok address := by decide +kernel
  have haccepted : Pattern.ofText "W508D6QEJXTDG4Y5r3zarvary0c5xw7k" .p2wpkh = .ok program := by
    decide +kernel
  refine ⟨⟨hwritten, ?_⟩, haccepted, ?_⟩
  · exact hcomplete _ _ _ _ (by decide) hwritten (by decide)
  · exact hsound _ _ _ haccepted (by decide)

end BitcoinKeys.Vanity
