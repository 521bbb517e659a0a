import BitcoinKeys.Bech32.Address
import BitcoinKeys.Proofs.Bech32.Codec
import BitcoinKeys.Proofs.Bech32.Regroup

/-! Witness addresses. An address is read exactly if it is the one that is written for its network and
program, in lower or in upper case. -/
namespace BitcoinKeys.Bech32

theorem map_toNat_bytesOfSymbols (symbols : List Symbol) :
    (bytesOfSymbols symbols).map UInt8.toNat = symbols.map BitVec.toNat := by
  rw [bytesOfSymbols, List.map_map]
  refine List.map_congr_left fun symbol _ => ?_
  exact UInt8.toNat_ofNat_of_lt' (symbol.isLt.trans (by decide))

theorem bytesOfSymbols_lt (symbols : List Symbol) :
    ∀ byte ∈ bytesOfSymbols symbols, byte.toNat < 2 ^ GroupWidth.symbol.bits := by
  intro byte hbyte
  have hmem := List.mem_map_of_mem (f := UInt8.toNat) hbyte
  rw [map_toNat_bytesOfSymbols] at hmem
  exact map_toNat_lt symbols _ hmem

theorem symbolsOfBytes_bytesOfSymbols (symbols : List Symbol) :
    symbolsOfBytes (bytesOfSymbols symbols) = .ok symbols := by
  induction symbols with
  | nil => rfl
  | cons symbol symbols ih =>
    have hbyte : (UInt8.ofNat symbol.toNat).toNat = symbol.toNat :=
      UInt8.toNat_ofNat_of_lt' (symbol.isLt.trans (by decide))
    have hlt : symbol.toNat < 32 := symbol.isLt
    rw [bytesOfSymbols] at ih ⊢
    rw [List.map_cons, symbolsOfBytes, hbyte, if_pos hlt, ih, BitVec.ofNat_toNat,
      BitVec.setWidth_eq]
    rfl

def programSymbols (program : Bytes) : List Symbol :=
  (Radix.fixed 32 32 program.toNat).map (BitVec.ofNat 5)

theorem map_toNat_programSymbols (program : Bytes) :
    (programSymbols program).map BitVec.toNat = Radix.fixed 32 32 program.toNat := by
  rw [programSymbols, List.map_map]
  refine (List.map_congr_left fun d hd => ?_).trans (List.map_id _)
  exact Nat.mod_eq_of_lt (Radix.fixed_lt 32 32 _ (by decide) d hd)

theorem length_programSymbols (program : Bytes) : (programSymbols program).length = 32 := by
  rw [programSymbols, List.length_map, Radix.length_fixed]

/-- The 160 bits of a program can be any 32 symbols. -/
theorem exists_programSymbols (symbols : List Symbol) (h : symbols.length = 32) :
    ∃ program : FixedBytes programLength, programSymbols program.toBytes = symbols := by
  have hlt := Radix.value_lt 32 (by decide) _ (map_toNat_lt symbols)
  have hfixed := Radix.fixed_value 32 (by decide) _ (map_toNat_lt symbols)
  rw [List.length_map, h] at hlt hfixed
  refine ⟨FixedBytes.ofNat programLength (Radix.value 32 (symbols.map BitVec.toNat)), ?_⟩
  have hnumber : (FixedBytes.ofNat programLength (Radix.value 32 (symbols.map BitVec.toNat))).toNat =
      Radix.value 32 (symbols.map BitVec.toNat) := FixedBytes.toNat_ofNat hlt
  rw [FixedBytes.toNat] at hnumber
  apply map_toNat_injective
  rw [map_toNat_programSymbols, hnumber, hfixed]

/-- Twenty bytes fill 32 symbols without padding. -/
theorem regroup_program (program : Bytes) (h : program.length = programLength) :
    regroup .byte .symbol true program = .ok (bytesOfSymbols (programSymbols program)) := by
  have hlt : ∀ byte ∈ program, byte.toNat < 2 ^ GroupWidth.byte.bits := fun byte _ => byte.toNat_lt
  have hbytes : bytesOfSymbols (programSymbols program) =
      (Radix.fixed 32 32 program.toNat).map UInt8.ofNat := by
    rw [← map_toNat_programSymbols, ← map_toNat_bytesOfSymbols, Bytes.map_ofNat_map_toNat]
  -- 160 bits leave nothing over
  have hdrain : (⟨program.toNat, 160⟩ : Pending).drain .symbol =
      (bytesOfSymbols (programSymbols program), ⟨0, 0⟩) := by
    rw [hbytes]
    simp [Pending.drain, GroupWidth.symbol, Nat.mod_one]
  rw [regroup_eq _ _ _ _ hlt, h]
  change (((⟨program.toNat, 160⟩ : Pending).drain .symbol).2.finish .byte .symbol true).map
    (((⟨program.toNat, 160⟩ : Pending).drain .symbol).1 ++ ·) = _
  rw [hdrain, Pending.finish]
  exact congrArg Except.ok (List.append_nil _)

/-- Only 32 symbols are read as twenty bytes: with one more, five bits are left over. -/
theorem regroup_groups_iff (groups : List Symbol) (program : Bytes)
    (h : program.length = programLength) :
    regroup .symbol .byte false (bytesOfSymbols groups) = .ok program ↔
      groups = programSymbols program := by
  have hnumber : Radix.value (2 ^ GroupWidth.symbol.bits)
      ((bytesOfSymbols groups).map UInt8.toNat) = Radix.value 32 (groups.map BitVec.toNat) := by
    rw [map_toNat_bytesOfSymbols]
    rfl
  have hlength : (bytesOfSymbols groups).length = groups.length := List.length_map _
  rw [regroup_unpadded_eq_ok_iff _ _ _ _ (bytesOfSymbols_lt groups), hnumber, hlength]
  change (5 * groups.length % 8 < 5 ∧ _ % 2 ^ (5 * groups.length % 8) = 0) ∧
    program = (Radix.fixed 256 (5 * groups.length / 8) (_ / 2 ^ (5 * groups.length % 8))).map _ ↔ _
  constructor
  · rintro ⟨⟨hleft, -⟩, hprogram⟩
    -- twenty bytes come out of 32 or 33 symbols, and of these 33 leave five bits over
    have hwidth : 5 * groups.length / 8 = 20 := by
      have hl := congrArg List.length hprogram
      rw [List.length_map, Radix.length_fixed] at hl
      exact hl.symm.trans h
    have hcount : groups.length = 32 := by omega
    have hlt := Radix.value_lt 32 (by decide) _ (map_toNat_lt groups)
    have hfixed := Radix.fixed_value 32 (by decide) _ (map_toNat_lt groups)
    rw [List.length_map, hcount] at hlt hfixed
    rw [hcount, Nat.pow_zero, Nat.div_one] at hprogram
    have hvalue : program.toNat = Radix.value 32 (groups.map BitVec.toNat) := by
      rw [hprogram]
      exact (Bytes.toNat_ofNat 20 _).trans (Nat.mod_eq_of_lt hlt)
    apply map_toNat_injective
    rw [map_toNat_programSymbols, hvalue, hfixed]
  · rintro rfl
    have hlt : program.toNat < 32 ^ 32 := by
      have hl := Bytes.toNat_lt program
      rw [h] at hl
      exact hl
    have hself := Bytes.ofNat_toNat program
    rw [h] at hself
    rw [map_toNat_programSymbols, length_programSymbols, Radix.value_fixed, Nat.mod_eq_of_lt hlt]
    refine ⟨⟨by decide, Nat.mod_one _⟩, ?_⟩
    rw [Nat.pow_zero, Nat.div_one]
    exact hself.symm

/-- The first symbol is the version zero; the others are the bits of the program. -/
theorem decodeProgram_eq_ok_iff (symbols : List Symbol) (program : Bytes) :
    decodeProgram symbols = .ok program ↔
      program.length = programLength ∧ symbols = 0 :: programSymbols program := by
  cases symbols with
  | nil => simp [decodeProgram]
  | cons version groups =>
    rw [decodeProgram]
    by_cases hversion : version ≠ 0
    · rw [if_pos hversion]
      constructor
      · intro h
        cases h
      · rintro ⟨-, h⟩
        exact absurd (List.cons.inj h).1 hversion
    · rw [if_neg hversion, bind_eq_ok_iff]
      rw [not_not] at hversion
      constructor
      -- the length is judged on the bytes, behind the regrouping
      · rintro ⟨read, hread, h⟩
        by_cases hl : read.length = programLength
        · rw [if_pos hl] at h
          cases h
          rw [hversion, (regroup_groups_iff groups program hl).mp hread]
          exact ⟨hl, rfl⟩
        · rw [if_neg hl] at h
          cases h
      · rintro ⟨hl, h⟩
        exact ⟨program, (regroup_groups_iff groups program hl).mpr (List.cons.inj h).2, if_pos hl⟩

/-- Witness programs have the human readable parts of the networks. -/
theorem part_witnessNetwork (network : Network) :
    (witnessNetwork network).part = network.humanReadablePart := by
  cases network <;> rfl

theorem encodeBytes_programSymbols (part : String) (program : Bytes) :
    encodeBytes part (0 :: bytesOfSymbols (programSymbols program)) =
      encode part (0 :: programSymbols program) := by
  have hsymbols := symbolsOfBytes_bytesOfSymbols (0 :: programSymbols program)
  change encodeBytes part (bytesOfSymbols (0 :: programSymbols program)) = _
  rw [encodeBytes, hsymbols]
  rfl

/-- Writing a witness program in general comes to the symbols of its bytes behind the version
zero. -/
theorem toAddress_eq (program : Bytes) (network : Network) (h : program.length = programLength) :
    WitnessProgram.toAddress ⟨0, program, witnessNetwork network⟩ =
      encode network.humanReadablePart (0 :: programSymbols program) := by
  rw [WitnessProgram.toAddress, regroup_program program h, part_witnessNetwork]
  exact encodeBytes_programSymbols network.humanReadablePart program

/-- A program is written as an address exactly if it has twenty bytes. -/
theorem encodeAddress_eq_ok_iff (program : Bytes) (network : Network) (address : String) :
    encodeAddress program network = .ok address ↔
      program.length = programLength ∧
        encode network.humanReadablePart (0 :: programSymbols program) = .ok address := by
  rw [encodeAddress]
  by_cases h : program.length ≠ programLength
  · rw [if_pos h]
    constructor
    · intro hok
      cases hok
    · rintro ⟨hl, -⟩
      exact absurd hl h
  · rw [if_neg h, toAddress_eq program network (not_not.mp h)]
    exact ⟨fun hok => ⟨not_not.mp h, hok⟩, fun hok => hok.2⟩

theorem ofHumanReadablePart?_eq_some_iff (part : String) (network : Network) :
    Network.ofHumanReadablePart? part = some network ↔ part = network.humanReadablePart := by
  rw [Network.ofHumanReadablePart?]
  by_cases hb : part = "bc"
  · subst hb
    cases network <;> simp [Network.humanReadablePart]
  · by_cases ht : part = "tb"
    · subst ht
      cases network <;> simp [Network.humanReadablePart]
    · cases network <;> simp [Network.humanReadablePart, hb, ht]

theorem isUpper_humanReadablePart (network : Network) :
    ∀ c ∈ network.humanReadablePart.toList, c.isUpper = false := by
  cases network <;> simp [Network.humanReadablePart]

theorem isPart_humanReadablePart (network : Network) :
    IsPart network.humanReadablePart.toList := by
  apply (isPart_iff _).mpr
  cases network <;> simp [Network.humanReadablePart, IsPrintable]

theorem exists_encodeAddress (program : Bytes) (network : Network)
    (h : program.length = programLength) : ∃ address, encodeAddress program network = .ok address := by
  obtain ⟨address, haddress⟩ := exists_encode (isPart_humanReadablePart network)
    (Or.inl (isUpper_humanReadablePart network)) (0 :: programSymbols program)
  exact ⟨address, (encodeAddress_eq_ok_iff ..).mpr ⟨h, haddress⟩⟩

theorem length_of_encode {text : String} {program : Bytes} {network : Network}
    (h : encode network.humanReadablePart (0 :: programSymbols program) = .ok text) :
    text.toList.length = 42 := by
  have hnetwork : network.humanReadablePart.toList.length = 2 := by cases network <;> rfl
  rw [((encode_eq_ok_iff ..).mp h).2, List.length_append, List.length_map, List.length_cons,
    List.length_map, List.length_append, length_checksum, List.length_cons, length_programSymbols,
    hnetwork]

/-- The part, the separator, the version, 32 symbols and six for the checksum. -/
theorem length_of_encodeAddress {program : Bytes} {network : Network} {text : String}
    (h : encodeAddress program network = .ok text) : text.toList.length = 42 :=
  length_of_encode ((encodeAddress_eq_ok_iff ..).mp h).2

/-- The version zero is written as 'q', and behind it come the program and the checksum. -/
theorem toList_of_encodeAddress {program : Bytes} {network : Network} {text : String}
    (h : encodeAddress program network = .ok text) :
    text.toList = network.humanReadablePart.toList ++ '1' :: 'q' ::
      (programSymbols program ++ checksum network.humanReadablePart.toList
        (0 :: programSymbols program)).map Symbol.char := by
  have hwritten := ((encodeAddress_eq_ok_iff ..).mp h).2
  rw [((encode_eq_ok_iff ..).mp hwritten).2, ← Text.toList_lower,
    Text.lower_of_no_upper _ (isUpper_humanReadablePart network)]
  rfl

theorem exists_tail_of_encodeAddress {program : Bytes} {network : Network} {text : String}
    (h : encodeAddress program network = .ok text) :
    ∃ tail, text.toList = network.humanReadablePart.toList ++ '1' :: 'q' :: tail :=
  ⟨_, toList_of_encodeAddress h⟩

/-- An address has 42 bytes, far below the limit for texts. -/
theorem byteLength_of_lower {text : String} {program : Bytes} {network : Network}
    (h : encode network.humanReadablePart (0 :: programSymbols program) = .ok (Text.lower text)) :
    Text.byteLength text = 42 := by
  have hlength := length_of_encode h
  rw [Text.toList_lower, List.length_map] at hlength
  rw [Text.byteLength, Text.byteCount_of_ascii _ (isAscii_of_encode_lower h), hlength]

/-- An address is read exactly if it is the one written for the network and the program, or the
upper case form of that. -/
theorem decodeAddress_eq_ok_iff (text : String) (network : Network) (program : Bytes) :
    decodeAddress text = .ok (network, program) ↔
      ∃ address, encodeAddress program network = .ok address ∧
        (text = address ∨ text = Text.upper address) := by
  have hread : decodeAddress text = .ok (network, program) ↔
      program.length = programLength ∧
        decode text = .ok (network.humanReadablePart, 0 :: programSymbols program) := by
    rw [decodeAddress, bind_eq_ok_iff]
    constructor
    · rintro ⟨⟨part, symbols⟩, hdecode, h⟩
      cases hpart : Network.ofHumanReadablePart? part with
      | none =>
        simp only [hpart] at h
        cases h
      | some found =>
        simp only [hpart, map_eq_ok_iff] at h
        obtain ⟨read, hprogram, hpair⟩ := h
        cases hpair
        obtain ⟨hl, rfl⟩ := (decodeProgram_eq_ok_iff ..).mp hprogram
        rw [(ofHumanReadablePart?_eq_some_iff ..).mp hpart] at hdecode
        exact ⟨hl, hdecode⟩
    · rintro ⟨hl, hdecode⟩
      refine ⟨_, hdecode, ?_⟩
      simp only [(ofHumanReadablePart?_eq_some_iff ..).mpr rfl, map_eq_ok_iff]
      exact ⟨program, (decodeProgram_eq_ok_iff ..).mpr ⟨hl, rfl⟩, rfl⟩
  rw [hread, decode_eq_ok_iff]
  simp only [encodeAddress_eq_ok_iff]
  -- the lower case form of the text is what is written, and the limit on the length never matters
  constructor
  · rintro ⟨hl, -, hcase, -, hencode⟩
    refine ⟨Text.lower text, ⟨hl, hencode⟩, ?_⟩
    exact (Text.oneCase_lower_iff text _ (isUpper_of_encode hencode)).mp ⟨hcase, rfl⟩
  · rintro ⟨address, ⟨hl, hencode⟩, htext⟩
    obtain ⟨hcase, hlower⟩ := (Text.oneCase_lower_iff text _ (isUpper_of_encode hencode)).mpr htext
    rw [← hlower] at hencode
    refine ⟨hl, ?_, hcase, isUpper_humanReadablePart network, hencode⟩
    rw [byteLength_of_lower hencode]
    decide

/-- The symbols have the bits of the program. -/
theorem bitsOf_programSymbols (program : Bytes) (h : program.length = programLength) :
    bitsOf .symbol (bytesOfSymbols (programSymbols program)) = bitsOf .byte program := by
  have hsymbols := bitsOf_eq .symbol _ (bytesOfSymbols_lt (programSymbols program))
  have hbytes := bitsOf_eq .byte program fun byte _ => byte.toNat_lt
  have hnumber : program.toNat < 32 ^ 32 := by
    have hlt := Bytes.toNat_lt program
    rw [h] at hlt
    exact hlt
  have hlength : (bytesOfSymbols (programSymbols program)).length = 32 :=
    (List.length_map _).trans (length_programSymbols program)
  rw [hlength, map_toNat_bytesOfSymbols, map_toNat_programSymbols] at hsymbols
  rw [h] at hbytes
  rw [hsymbols, hbytes]
  exact congrArg (Radix.fixed 2 160)
    ((Radix.value_fixed 32 32 _).trans (Nat.mod_eq_of_lt hnumber))

/-- An address is the text of the version and the regrouped program, with nothing special about
it. -/
theorem encodeAddress_eq_ok_iff_generic (program : Bytes) (network : Network) (address : String) :
    encodeAddress program network = .ok address ↔ program.length = programLength ∧
      ∃ groups, regroup .byte .symbol true program = .ok groups ∧
        bitsOf .symbol groups = bitsOf .byte program ∧
        encodeBytes network.humanReadablePart (0 :: groups) = .ok address := by
  rw [encodeAddress_eq_ok_iff]
  refine and_congr_right fun h => ?_
  have hgroups := regroup_program program h
  have hwritten := encodeBytes_programSymbols network.humanReadablePart program
  constructor
  · intro hencode
    exact ⟨_, hgroups, bitsOf_programSymbols program h, hwritten.trans hencode⟩
  · rintro ⟨groups, hregroup, -, hencode⟩
    cases hregroup.symm.trans hgroups
    exact hwritten.symm.trans hencode

theorem exists_encodeAddress_iff (program : Bytes) (network : Network) :
    (∃ address, encodeAddress program network = .ok address) ↔ program.length = programLength := by
  constructor
  · rintro ⟨address, h⟩
    exact ((encodeAddress_eq_ok_iff ..).mp h).1
  · exact exists_encodeAddress program network

/-- The length of the program is the one fault that writing has. -/
theorem encodeAddress_eq_error_iff (program : Bytes) (network : Network) :
    encodeAddress program network = .error (.invalidLength program.length) ↔
      program.length ≠ programLength := by
  constructor
  · intro herror h
    obtain ⟨address, hok⟩ := exists_encodeAddress program network h
    cases hok.symm.trans herror
  · intro h
    rw [encodeAddress, if_pos h]

/-- The addresses that are read are those that are written for programs of twenty bytes, in either
case, and no other program is written. What is written is the generic text of a zero and the
program in groups of five bits. -/
theorem reads_exactly_witness_addresses :
    (∀ text network program, decodeAddress text = .ok (network, program) ↔
        program.length = 20 ∧ ∃ address, encodeAddress program network = .ok address ∧
          (text = address ∨ text = Text.upper address)) ∧
      (∀ program network, (∃ address, encodeAddress program network = .ok address) ↔
        program.length = 20) ∧
      (∀ program network, encodeAddress program network = .error (.invalidLength program.length) ↔
        program.length ≠ 20) ∧
      ∀ program network address, encodeAddress program network = .ok address ↔
        program.length = 20 ∧ ∃ groups, regroup .byte .symbol true program = .ok groups ∧
          bitsOf .symbol groups = bitsOf .byte program ∧
          encodeBytes network.humanReadablePart (0 :: groups) = .ok address := by
  refine ⟨?_, exists_encodeAddress_iff, encodeAddress_eq_error_iff,
    encodeAddress_eq_ok_iff_generic⟩
  intro text network program
  rw [decodeAddress_eq_ok_iff]
  constructor
  · rintro ⟨address, hwritten, htext⟩
    exact ⟨((encodeAddress_eq_ok_iff ..).mp hwritten).1, address, hwritten, htext⟩
  · exact And.right

/-- The program of the generator, in upper case. -/
example : (decodeAddress "BC1QW508D6QEJXTDG4Y5R3ZARVARY0C5XW7KV8F3T4").map (·.1) = .ok .bitcoin := by
  decide +kernel

end BitcoinKeys.Bech32
