import BitcoinKeys.KeyGuess
import BitcoinKeys.Proofs.Decimal
import BitcoinKeys.Proofs.Hex
import BitcoinKeys.Proofs.Wif

/-! The rules that find the format of a key. Each rule is a property of the data alone, and a rule that
matches decides: what it then refuses is an error and goes to no later rule. -/
namespace BitcoinKeys.KeyGuess

open Text (dropFinalNewline ofAscii utf8)

def DecimalText (text : Bytes) : Prop := text ≠ [] ∧ ∀ byte ∈ text, 48 ≤ byte ∧ byte ≤ 57

def HexText (text : Bytes) : Prop :=
  (text.length = 64 ∨ text.length = 66) ∧ ∀ byte ∈ text,
    (48 ≤ byte ∧ byte ≤ 57) ∨ (97 ≤ byte ∧ byte ≤ 102) ∨ (65 ≤ byte ∧ byte ≤ 70)

def WifText (text : Bytes) : Prop := ∃ key network, text = utf8 (Wif.encode key network)

def PhraseText (text : Bytes) : Prop := text ≠ [] ∧ ∀ byte ∈ text, 1 ≤ byte ∧ byte ≤ 127

def RawData (data : Bytes) : Prop := data.length = 32 ∨ (data.length = 33 ∧ data.getD 32 0 ≤ 1)

theorem isDecimal_iff (text : Bytes) : isDecimal text = true ↔ DecimalText text := by
  rw [isDecimal, DecimalText, Bool.and_eq_true, decide_eq_true_iff, List.all_eq_true]
  refine and_congr_right fun _ => forall₂_congr fun byte _ => ?_
  rw [Bool.and_eq_true, decide_eq_true_iff, decide_eq_true_iff]

theorem isHex_iff (text : Bytes) : isHex text = true ↔ HexText text := by
  rw [isHex, HexText, Bool.and_eq_true, Bool.or_eq_true, decide_eq_true_iff, decide_eq_true_iff,
    List.all_eq_true]
  exact and_congr_right fun _ => forall₂_congr fun byte _ => Hex.isDigit_iff byte

theorem isPhrase_iff (text : Bytes) : isPhrase text = true ↔ PhraseText text := by
  rw [isPhrase, PhraseText, Bool.and_eq_true, decide_eq_true_iff, List.all_eq_true]
  refine and_congr_right fun _ => forall₂_congr fun byte _ => ?_
  rw [Bool.and_eq_true, decide_eq_true_iff, decide_eq_true_iff]
  simp only [UInt8.lt_iff_toNat_lt, UInt8.le_iff_toNat_le, UInt8.reduceToNat]
  omega

theorem isRaw_iff (data : Bytes) : isRaw data = true ↔ RawData data := by
  rw [isRaw, RawData, Bool.or_eq_true, Bool.and_eq_true, decide_eq_true_iff, decide_eq_true_iff,
    decide_eq_true_iff]

/-- Symbols are no blanks, so there is nothing to trim. -/
theorem isBlank_ofUInt8 {text : Bytes} (h : ∀ byte ∈ text, Base58.isSymbolByte byte = true) :
    ∀ c ∈ (ofAscii text).toList, Text.isBlank c = false := by
  intro c hc
  rw [Text.toList_ofAscii] at hc
  obtain ⟨byte, hb, rfl⟩ := List.mem_map.mp hc
  exact Base58.isBlank_of_isSymbol (h byte hb)

theorem lt_128_of_isSymbolByte {byte : UInt8} (h : Base58.isSymbolByte byte = true) : byte < 128 := by
  have hlt := Base58.lt_128_of_isSymbol h
  rw [Text.toNat_ofUInt8] at hlt
  exact UInt8.lt_iff_toNat_lt.mpr hlt

theorem ofAscii_utf8_encode (key : PrivateKey) (network : Network) :
    ofAscii (utf8 (Wif.encode key network)) = Wif.encode key network :=
  Text.ofAscii_utf8 _ (Wif.isAscii_encode key network)

/-- Without blanks to skip, what the rule reads is what is written for the key that it finds. -/
theorem isWif_iff (text : Bytes) : isWif text = true ↔ WifText text := by
  rw [isWif, Bool.and_eq_true, Bool.and_eq_true, Bool.and_eq_true, decide_eq_true_iff,
    decide_eq_true_iff, List.all_eq_true, toBool_eq_true_iff]
  constructor
  -- symbols are no blanks, so nothing is trimmed off before reading
  · rintro ⟨⟨_, hsymbols⟩, ⟨key, network⟩, hread⟩
    have htrim := Text.trimBlank_of_none _ (isBlank_ofUInt8 hsymbols)
    have hwritten := (Wif.decode_eq_ok_iff ..).mp hread
    rw [htrim] at hwritten
    refine ⟨key, network, ?_⟩
    rw [← hwritten, Text.utf8_ofAscii text fun byte hb => lt_128_of_isSymbolByte (hsymbols byte hb)]
  -- a text that is written passes the tests on length and symbols that stand before reading
  · rintro ⟨key, network, rfl⟩
    have hback := ofAscii_utf8_encode key network
    have hmap : (utf8 (Wif.encode key network)).map Char.ofUInt8 =
        (Wif.encode key network).toList := by
      rw [← Text.toList_ofAscii, hback]
    have hlength : (utf8 (Wif.encode key network)).length = if key.compressed then 52 else 51 := by
      rw [← List.length_map (f := Char.ofUInt8), hmap, Wif.length_encode]
    refine ⟨⟨?_, fun byte hb => ?_⟩, (key, network), ?_⟩
    · rw [hlength]
      cases key.compressed
      · decide
      · decide
    · have hc : Char.ofUInt8 byte ∈ (Wif.encode key network).toList :=
        hmap ▸ List.mem_map_of_mem hb
      exact Wif.isSymbol_encode key network _ hc
    · rw [hback]
      exact Wif.decode_encode key network

variable (data : Bytes)

theorem isDigit_ofUInt8 {byte : UInt8} (h : 48 ≤ byte ∧ byte ≤ 57) :
    (Char.ofUInt8 byte).isDigit = true := by
  have hn := Text.toNat_ofUInt8 byte
  simp only [UInt8.le_iff_toNat_le, UInt8.reduceToNat] at h
  rw [Char.isDigit, Bool.and_eq_true, decide_eq_true_iff, decide_eq_true_iff]
  simp only [ge_iff_le, UInt32.le_iff_toNat_le]
  rw [Char.toNat] at hn
  rw [hn]
  exact h

theorem read_decimal (h : DecimalText (dropFinalNewline data)) :
    read .decimal data =
      if Decimal.number (ofAscii (dropFinalNewline data)) < 2 ^ 256 then
        .ok ⟨⟨.ofNat 32 (Decimal.number (ofAscii (dropFinalNewline data))), true⟩, .decimal, none⟩
      else .error (.invalidFormat (.decimalTooWide 32)) := by
  obtain ⟨hne, hdigits⟩ := h
  have hlist : (ofAscii (dropFinalNewline data)).toList ≠ [] := by
    rw [Text.toList_ofAscii]
    exact mt List.map_eq_nil_iff.mp hne
  have hall : ∀ c ∈ (ofAscii (dropFinalNewline data)).toList, c.isDigit = true := by
    intro c hc
    rw [Text.toList_ofAscii] at hc
    obtain ⟨byte, hb, rfl⟩ := List.mem_map.mp hc
    exact isDigit_ofUInt8 (hdigits byte hb)
  rw [read, PrivateKey.ofDecimal_of_digits _ hlist hall]
  split_ifs
  · rfl
  · rfl

theorem isDigit_of_hexText {text : Bytes} (h : HexText text) :
    ∀ byte ∈ text, Hex.isDigit byte = true := fun byte hb =>
  (Hex.isDigit_iff byte).mpr (h.2 byte hb)

theorem read_hex_scalar (h : HexText (dropFinalNewline data))
    (hl : (dropFinalNewline data).length = 64) :
    read .hex data =
      .ok ⟨⟨.ofNat 32 (Hex.number (dropFinalNewline data)), false⟩, .hex, none⟩ := by
  rw [read, PrivateKey.ofHex_scalar _ hl (isDigit_of_hexText h)]
  rfl

theorem read_hex_marked (h : HexText (dropFinalNewline data))
    (hl : (dropFinalNewline data).length = 66) :
    read .hex data =
      if Hex.number ((dropFinalNewline data).drop 64) = 1 then
        .ok ⟨⟨.ofNat 32 (Hex.number ((dropFinalNewline data).take 64)), true⟩, .hex, none⟩
      else .error (.invalidFormat (.hexCompressionMarker
        (.ofNat (Hex.number ((dropFinalNewline data).drop 64))))) := by
  rw [read, PrivateKey.ofHex_marked _ hl (isDigit_of_hexText h)]
  split_ifs
  · rfl
  · rfl

/-- Thirty-two bytes and perhaps a marker always read as a key. -/
theorem read_raw (h : RawData data) :
    ∃ key, read .raw data = .ok ⟨key, .raw, none⟩ ∧ key.scalar.toBytes = data.take 32 ∧
      (key.compressed = true ↔ data[32]? = some 1) := by
  rcases h with hl | ⟨hl, hflag⟩
  · refine ⟨⟨⟨data, hl⟩, false⟩, ?_, ?_, ?_⟩
    · rw [read, PrivateKey.ofRaw_scalar ⟨data, hl⟩]
      rfl
    · exact (List.take_of_length_le hl.le).symm
    · rw [List.getElem?_eq_none hl.le]
      simp
  · obtain ⟨scalar, marker, rfl⟩ := PrivateKey.exists_marked data hl
    rw [PrivateKey.getD_marked] at hflag
    have hread := PrivateKey.ofRaw_marked scalar marker
    refine ⟨⟨scalar, marker = 1⟩, ?_, (PrivateKey.take_marked scalar marker).symm, ?_⟩
    · rw [read, hread]
      -- of the two markers that the rule lets through, both are read
      rcases PrivateKey.marker_cases hflag with rfl | rfl
      · rfl
      · rfl
    · rw [PrivateKey.getElem?_marked]
      simp

/-- The text written for a key gives back the key and its network. -/
theorem read_wif (key : PrivateKey) (network : Network)
    (h : dropFinalNewline data = utf8 (Wif.encode key network)) :
    read .wif data = .ok ⟨key, .wif, some network⟩ := by
  rw [read, h, ofAscii_utf8_encode, Wif.decode_encode]
  rfl

theorem ofData_eq_read {format : KeyFormat} (h : classify data = some format) :
    ofData data = read format data := by
  rw [ofData, h]

theorem classify_decimal (h : DecimalText (dropFinalNewline data)) :
    classify data = some .decimal :=
  if_pos ((isDecimal_iff _).mpr h)

section

variable (hdecimal : ¬ DecimalText (dropFinalNewline data))
include hdecimal

theorem classify_hex (h : HexText (dropFinalNewline data)) : classify data = some .hex := by
  refine (if_neg (mt (isDecimal_iff _).mp hdecimal)).trans ?_
  exact if_pos ((isHex_iff _).mpr h)

variable (hhex : ¬ HexText (dropFinalNewline data))
include hhex

theorem classify_wif (h : WifText (dropFinalNewline data)) : classify data = some .wif := by
  refine (if_neg (mt (isDecimal_iff _).mp hdecimal)).trans ?_
  refine (if_neg (mt (isHex_iff _).mp hhex)).trans ?_
  exact if_pos ((isWif_iff _).mpr h)

variable (hwif : ¬ WifText (dropFinalNewline data))
include hwif

theorem classify_phrase (h : PhraseText (dropFinalNewline data)) :
    classify data = some .phrase := by
  refine (if_neg (mt (isDecimal_iff _).mp hdecimal)).trans ?_
  refine (if_neg (mt (isHex_iff _).mp hhex)).trans ?_
  refine (if_neg (mt (isWif_iff _).mp hwif)).trans ?_
  exact if_pos ((isPhrase_iff _).mpr h)

variable (hphrase : ¬ PhraseText (dropFinalNewline data))
include hphrase

/-- Data that no rule for texts takes is raw or nothing. -/
theorem classify_past_texts : classify data = if isRaw data then some .raw else none := by
  refine (if_neg (mt (isDecimal_iff _).mp hdecimal)).trans ?_
  refine (if_neg (mt (isHex_iff _).mp hhex)).trans ?_
  refine (if_neg (mt (isWif_iff _).mp hwif)).trans ?_
  exact if_neg (mt (isPhrase_iff _).mp hphrase)

end

theorem format_of_read {format : KeyFormat} {guess : KeyGuess} (h : read format data = .ok guess) :
    guess.format = format ∧ (guess.network.isSome = true ↔ format = .wif) := by
  cases format with
  | decimal | hex | raw =>
    obtain ⟨key, _, rfl⟩ := (map_eq_ok_iff ..).mp h
    exact ⟨rfl, by simp⟩
  | wif =>
    obtain ⟨⟨key, network⟩, _, rfl⟩ := (map_eq_ok_iff ..).mp h
    exact ⟨rfl, by simp⟩
  | phrase =>
    cases h
    exact ⟨rfl, by simp⟩

/-- A guess says the format of the rule that decided, and a network only for wallet import
format. -/
theorem format_of_ofData {guess : KeyGuess} (h : ofData data = .ok guess) :
    classify data = some guess.format ∧ (guess.network.isSome = true ↔ guess.format = .wif) := by
  cases hc : classify data with
  | none =>
    rw [ofData, hc] at h
    cases h
  | some format =>
    rw [ofData_eq_read data hc] at h
    obtain ⟨hformat, hnetwork⟩ := format_of_read data h
    rw [hformat]
    exact ⟨rfl, hnetwork⟩

/-- Only Base58Check has checksums, and a text whose checksum fails is no key in wallet import
format but a phrase. -/
theorem fault_of_ofData {error : Error} (h : ofData data = .error error) :
    ∃ fault, error = .invalidFormat fault := by
  by_cases hdecimal : DecimalText (dropFinalNewline data)
  · rw [ofData_eq_read data (classify_decimal data hdecimal), read_decimal data hdecimal] at h
    split_ifs at h
    cases h
    exact ⟨_, rfl⟩
  by_cases hhex : HexText (dropFinalNewline data)
  · rw [ofData_eq_read data (classify_hex data hdecimal hhex)] at h
    -- 64 digits are always read
    rcases hhex.1 with hl | hl
    · rw [read_hex_scalar data hhex hl] at h
      cases h
    · rw [read_hex_marked data hhex hl] at h
      split_ifs at h
      cases h
      exact ⟨_, rfl⟩
  by_cases hwif : WifText (dropFinalNewline data)
  · obtain ⟨key, network, htext⟩ := hwif
    rw [ofData_eq_read data (classify_wif data hdecimal hhex ⟨key, network, htext⟩),
      read_wif data key network htext] at h
    cases h
  by_cases hphrase : PhraseText (dropFinalNewline data)
  · rw [ofData_eq_read data (classify_phrase data hdecimal hhex hwif hphrase), read] at h
    cases h
  have hrest := classify_past_texts data hdecimal hhex hwif hphrase
  by_cases hraw : isRaw data = true
  · rw [if_pos hraw] at hrest
    obtain ⟨key, hkey, _⟩ := read_raw data ((isRaw_iff data).mp hraw)
    rw [ofData_eq_read data hrest, hkey] at h
    cases h
  · rw [if_neg hraw] at hrest
    rw [ofData, hrest] at h
    cases h
    exact ⟨_, rfl⟩

/-- The decision list. Each rule stands under the negation of those before it and says what the
format is and what comes of reading; the last three fields hold whichever rule decides. -/
structure DecisionList (data text : Bytes) : Prop where
  decimal : DecimalText text →
    classify data = some .decimal ∧
      ofData data =
        if Decimal.number (ofAscii text) < 2 ^ 256 then
          .ok ⟨⟨.ofNat 32 (Decimal.number (ofAscii text)), true⟩, .decimal, none⟩
        else .error (.invalidFormat (.decimalTooWide 32))
  hex_scalar : ¬ DecimalText text → HexText text → text.length = 64 →
    classify data = some .hex ∧
      ofData data = .ok ⟨⟨.ofNat 32 (Hex.number text), false⟩, .hex, none⟩
  hex_marked : ¬ DecimalText text → HexText text → text.length = 66 →
    classify data = some .hex ∧
      ofData data =
        if Hex.number (text.drop 64) = 1 then
          .ok ⟨⟨.ofNat 32 (Hex.number (text.take 64)), true⟩, .hex, none⟩
        else .error (.invalidFormat (.hexCompressionMarker (.ofNat (Hex.number (text.drop 64)))))
  wif : ¬ DecimalText text → ¬ HexText text →
    ∀ key network, text = utf8 (Wif.encode key network) →
      classify data = some .wif ∧ ofData data = .ok ⟨key, .wif, some network⟩
  phrase : ¬ DecimalText text → ¬ HexText text → ¬ WifText text → PhraseText text →
    classify data = some .phrase ∧ ofData data = .ok ⟨⟨Hash.sha256 text, true⟩, .phrase, none⟩
  raw : ¬ DecimalText text → ¬ HexText text → ¬ WifText text → ¬ PhraseText text → RawData data →
    classify data = some .raw ∧
      ∃ key, ofData data = .ok ⟨key, .raw, none⟩ ∧ key.scalar.toBytes = data.take 32 ∧
        (key.compressed = true ↔ data[32]? = some 1)
  nothing : ¬ DecimalText text → ¬ HexText text → ¬ WifText text → ¬ PhraseText text →
    ¬ RawData data → classify data = none ∧ ofData data = .error (.invalidFormat .noKeyFormat)
  success : ∀ guess, ofData data = .ok guess →
    classify data = some guess.format ∧ (guess.network.isSome = true ↔ guess.format = .wif)
  decided : ∀ format, classify data = some format → ofData data = read format data
  failure : ∀ error, ofData data = .error error → ∃ fault, error = .invalidFormat fault

/-- The text that the rules see is the data without one line feed at its end; the last rule sees the
data as given. -/
theorem follows_decision_list : DecisionList data (dropFinalNewline data) := by
  have hfollow {format : KeyFormat} (hc : classify data = some format) :
      ofData data = read format data := ofData_eq_read data hc
  constructor
  case decimal =>
    intro hdecimal
    have hc := classify_decimal data hdecimal
    exact ⟨hc, (hfollow hc).trans (read_decimal data hdecimal)⟩
  case hex_scalar =>
    intro hdecimal hhex hl
    have hc := classify_hex data hdecimal hhex
    exact ⟨hc, (hfollow hc).trans (read_hex_scalar data hhex hl)⟩
  case hex_marked =>
    intro hdecimal hhex hl
    have hc := classify_hex data hdecimal hhex
    exact ⟨hc, (hfollow hc).trans (read_hex_marked data hhex hl)⟩
  case wif =>
    intro hdecimal hhex key network htext
    have hc := classify_wif data hdecimal hhex ⟨key, network, htext⟩
    exact ⟨hc, (hfollow hc).trans (read_wif data key network htext)⟩
  case phrase =>
    intro hdecimal hhex hwif hphrase
    have hc := classify_phrase data hdecimal hhex hwif hphrase
    exact ⟨hc, hfollow hc⟩
  case raw =>
    intro hdecimal hhex hwif hphrase hraw
    have hc := classify_past_texts data hdecimal hhex hwif hphrase
    rw [if_pos ((isRaw_iff data).mpr hraw)] at hc
    rw [hfollow hc]
    exact ⟨hc, read_raw data hraw⟩
  -- no rule is left, so the guess fails without reading anything
  case nothing =>
    intro hdecimal hhex hwif hphrase hraw
    have hc := classify_past_texts data hdecimal hhex hwif hphrase
    rw [if_neg (mt (isRaw_iff data).mp hraw)] at hc
    rw [ofData, hc]
    exact ⟨rfl, rfl⟩
  case success => exact fun guess h => format_of_ofData data h
  case decided => exact fun format hc => hfollow hc
  case failure => exact fun error h => fault_of_ofData data h

end BitcoinKeys.KeyGuess
