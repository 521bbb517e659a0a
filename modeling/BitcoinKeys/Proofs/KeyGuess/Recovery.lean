import BitcoinKeys.Proofs.KeyGuess

/-! Guessing the format of a key that this library has written. The key comes back unless the rules of an
earlier format match what was written, and these are told by single characters. -/
namespace BitcoinKeys.KeyGuess

open Text (IsAscii dropFinalNewline ofAscii utf8)

def textData (text : String) (lineFeed : Bool) : Bytes :=
  if lineFeed then utf8 text ++ [10] else utf8 text

section

variable {text : String} (h : IsAscii text.toList)
include h

/-- The rules for texts see the same bytes with and without the line feed. -/
theorem dropFinalNewline_textData (lineFeed : Bool) (hline : '\n' ∉ text.toList) :
    dropFinalNewline (textData text lineFeed) = utf8 text := by
  cases lineFeed
  · -- the text itself does not end in a line feed that could be dropped
    refine if_neg fun hlast => hline ?_
    have hmem : (10 : UInt8) ∈ utf8 text := List.mem_of_getLast? hlast
    rw [Text.utf8_of_ascii text h] at hmem
    obtain ⟨c, hc, hbyte⟩ := List.mem_map.mp hmem
    have hnat := congrArg UInt8.toNat hbyte
    rw [UInt8.toNat_ofNat_of_lt' (Nat.lt_trans (h c hc) (by decide))] at hnat
    have hc10 : c = '\n' := Char.ext (UInt32.toNat_inj.mp hnat)
    exact hc10 ▸ hc
  · have hlast : (utf8 text ++ [10]).getLast? = some 10 := List.getLast?_concat
    exact (if_pos hlast).trans List.dropLast_concat

theorem decimalText_utf8_iff :
    DecimalText (utf8 text) ↔ text.toList ≠ [] ∧ ∀ c ∈ text.toList, c.isDigit = true := by
  rw [DecimalText, Text.utf8_of_ascii text h, ne_eq, List.map_eq_nil_iff, List.forall_mem_map]
  refine and_congr_right fun _ => forall₂_congr fun c hc => ?_
  have hnat := UInt8.toNat_ofNat_of_lt' (Nat.lt_trans (h c hc) (by decide : 128 < UInt8.size))
  rw [UInt8.le_iff_toNat_le, UInt8.le_iff_toNat_le, hnat, Char.isDigit, Bool.and_eq_true,
    decide_eq_true_iff, decide_eq_true_iff, ge_iff_le, UInt32.le_iff_toNat_le,
    UInt32.le_iff_toNat_le]
  rfl

end

/-- A format other than the first is found exactly where there is something besides decimal
digits. -/
theorem ofData_iff_not_digit {text : String} (h : IsAscii text.toList) (lineFeed : Bool)
    (hline : '\n' ∉ text.toList) (hne : text.toList ≠ []) {guess : KeyGuess}
    (hformat : guess.format ≠ .decimal)
    (hread : ¬ DecimalText (utf8 text) → ofData (textData text lineFeed) = .ok guess) :
    ofData (textData text lineFeed) = .ok guess ↔ ∃ c ∈ text.toList, c.isDigit = false := by
  have htext := dropFinalNewline_textData h lineFeed hline
  constructor
  · intro hguess
    -- otherwise the first rule would have matched
    by_contra hdigits
    have hall : ∀ c ∈ text.toList, c.isDigit = true := by
      intro c hc
      by_contra hdigit
      exact hdigits ⟨c, hc, Bool.eq_false_iff.mpr hdigit⟩
    have hdecimal := (decimalText_utf8_iff h).mpr ⟨hne, hall⟩
    rw [← htext] at hdecimal
    have hfirst := classify_decimal _ hdecimal
    rw [(format_of_ofData _ hguess).1] at hfirst
    exact hformat (Option.some.inj hfirst)
  · intro hdigit
    apply hread
    intro hdecimal
    obtain ⟨c, hc, hfalse⟩ := hdigit
    have htrue := ((decimalText_utf8_iff h).mp hdecimal).2 c hc
    rw [hfalse] at htrue
    exact Bool.false_ne_true htrue

variable (key : PrivateKey)

theorem isAscii_toDecimal : IsAscii key.toDecimal.toList := by
  intro c hc
  have hdigit := Decimal.isDigit_encode _ c hc
  rw [Char.isDigit, Bool.and_eq_true, decide_eq_true_iff, decide_eq_true_iff,
    UInt32.le_iff_toNat_le] at hdigit
  exact Nat.lt_of_le_of_lt hdigit.2 (by decide)

/-- The decimal rule comes first, so nothing stands in the way of a numeral. -/
theorem ofData_toDecimal (lineFeed : Bool) :
    ofData (textData key.toDecimal lineFeed) = .ok ⟨⟨key.scalar, true⟩, .decimal, none⟩ := by
  have hascii := isAscii_toDecimal key
  have hline : '\n' ∉ key.toDecimal.toList := fun hc =>
    absurd (Decimal.isDigit_encode _ _ hc) (by decide)
  have htext := dropFinalNewline_textData hascii lineFeed hline
  have hdecimal : DecimalText (utf8 key.toDecimal) :=
    (decimalText_utf8_iff hascii).mpr ⟨Decimal.encode_ne_nil _, Decimal.isDigit_encode _⟩
  rw [← htext] at hdecimal
  rw [ofData_eq_read _ (classify_decimal _ hdecimal), read, htext, Text.ofAscii_utf8 _ hascii,
    PrivateKey.ofDecimal_toDecimal]
  rfl

theorem isDigit_eq_not_isAlpha :
    ∀ v < 16, (Hex.digit v).isDigit = !(Hex.digit v).isAlpha := by decide

/-- Hexadecimal digits that are not decimal are letters. -/
theorem exists_letter_toHex_iff :
    (∃ c ∈ key.toHex.toList, c.isAlpha = true) ↔ ∃ c ∈ key.toHex.toList, c.isDigit = false := by
  refine exists_congr fun c => and_congr_right fun hc => ?_
  obtain ⟨v, hv, rfl⟩ := Hex.exists_digit_of_mem_encode hc
  rw [isDigit_eq_not_isAlpha v hv, Bool.not_eq_false']

theorem length_utf8_toHex : (utf8 key.toHex).length = if key.compressed then 66 else 64 := by
  rw [PrivateKey.toHex, Hex.length_utf8_encode, PrivateKey.length_toRaw]
  split_ifs
  · rfl
  · rfl

theorem hexText_toHex : HexText (utf8 key.toHex) := by
  refine (isHex_iff _).mp ?_
  rw [isHex, Bool.and_eq_true, Bool.or_eq_true, decide_eq_true_iff, decide_eq_true_iff,
    List.all_eq_true]
  refine ⟨?_, Hex.isDigit_utf8_encode _⟩
  rw [length_utf8_toHex]
  split_ifs
  · exact Or.inr rfl
  · exact Or.inl rfl

/-- Digits without a letter are taken for a decimal numeral. -/
theorem ofData_toHex_iff (lineFeed : Bool) :
    ofData (textData key.toHex lineFeed) = .ok ⟨key, .hex, none⟩ ↔
      ∃ c ∈ key.toHex.toList, c.isAlpha = true := by
  have hascii : IsAscii key.toHex.toList := Hex.isAscii_encode _
  have hline : '\n' ∉ key.toHex.toList := Hex.newline_notMem_encode _
  have hne : key.toHex.toList ≠ [] := by
    intro hnil
    have hlength := length_utf8_toHex key
    rw [utf8, hnil] at hlength
    cases hc : key.compressed <;> simp [hc] at hlength
  rw [exists_letter_toHex_iff]
  apply ofData_iff_not_digit hascii lineFeed hline hne
  · show KeyFormat.hex ≠ .decimal
    decide
  · intro hdecimal
    have htext := dropFinalNewline_textData hascii lineFeed hline
    have hhex := hexText_toHex key
    rw [← htext] at hdecimal hhex
    rw [ofData_eq_read _ (classify_hex _ hdecimal hhex), read, htext, Text.ofAscii_utf8 _ hascii,
      PrivateKey.ofHex_toHex]
    rfl

theorem not_hexText_encode (network : Network) : ¬ HexText (utf8 (Wif.encode key network)) := by
  intro hhex
  have hlength := Wif.length_encode key network
  rw [HexText, Text.utf8_of_ascii _ (Wif.isAscii_encode key network), List.length_map] at hhex
  split_ifs at hlength
  · have := hhex.1
    omega
  · have := hhex.1
    omega

theorem ofData_wif_iff (network : Network) (lineFeed : Bool) :
    ofData (textData (Wif.encode key network) lineFeed) = .ok ⟨key, .wif, some network⟩ ↔
      ∃ c ∈ (Wif.encode key network).toList, c.isDigit = false := by
  have hascii := Wif.isAscii_encode key network
  have hline : '\n' ∉ (Wif.encode key network).toList := fun hc =>
    absurd (Base58.isBlank_of_isSymbol (Wif.isSymbol_encode key network _ hc)) (by decide)
  have hne : (Wif.encode key network).toList ≠ [] := by
    intro hnil
    have hlength := Wif.length_encode key network
    rw [hnil] at hlength
    cases hc : key.compressed <;> simp [hc] at hlength
  apply ofData_iff_not_digit hascii lineFeed hline hne
  · show KeyFormat.wif ≠ .decimal
    decide
  · intro hdecimal
    have htext := dropFinalNewline_textData hascii lineFeed hline
    have hhex := not_hexText_encode key network
    rw [← htext] at hdecimal hhex
    rw [ofData_eq_read _ (classify_wif _ hdecimal hhex ⟨key, network, htext⟩),
      read_wif _ key network htext]

/-- Every text that an earlier rule takes could be read as a phrase as well. -/
theorem phraseText_of_decimalText {text : Bytes} (h : DecimalText text) : PhraseText text := by
  refine ⟨h.1, fun byte hb => ?_⟩
  have hrange := h.2 byte hb
  simp only [UInt8.le_iff_toNat_le, UInt8.reduceToNat] at hrange ⊢
  omega

theorem phraseText_of_isDigit {text : Bytes} (hne : text ≠ [])
    (h : ∀ byte ∈ text, Hex.isDigit byte = true) : PhraseText text := by
  refine ⟨hne, fun byte hb => ?_⟩
  have hrange := (Hex.isDigit_iff byte).mp (h byte hb)
  simp only [UInt8.le_iff_toNat_le, UInt8.reduceToNat] at hrange ⊢
  omega

theorem phraseText_of_hexText {text : Bytes} (h : HexText text) : PhraseText text := by
  refine phraseText_of_isDigit ?_ (isDigit_of_hexText h)
  rintro rfl
  exact absurd h.1 (by decide)

theorem phraseText_of_wifText {text : Bytes} (h : WifText text) : PhraseText text := by
  have hwif := (isWif_iff text).mpr h
  rw [isWif, Bool.and_eq_true, Bool.and_eq_true, Bool.and_eq_true, decide_eq_true_iff,
    List.all_eq_true] at hwif
  obtain ⟨⟨⟨hlength, -⟩, hsymbols⟩, -⟩ := hwif
  constructor
  · rintro rfl
    exact absurd hlength (by decide)
  · intro byte hb
    have hsymbol := hsymbols byte hb
    have hascii := UInt8.lt_iff_toNat_lt.mp (lt_128_of_isSymbolByte hsymbol)
    have hzero : byte ≠ 0 := by
      rintro rfl
      exact absurd hsymbol (by decide)
    rw [ne_eq, ← UInt8.toNat_inj] at hzero
    simp only [UInt8.le_iff_toNat_le, UInt8.reduceToNat] at hascii hzero ⊢
    omega

/-- The phrase rule takes any raw data that it can. -/
theorem classify_eq_raw_iff (data : Bytes) (h : RawData data) :
    classify data = some .raw ↔ ¬ PhraseText (dropFinalNewline data) := by
  constructor
  · intro hraw hphrase
    by_cases hdecimal : DecimalText (dropFinalNewline data)
    · rw [classify_decimal data hdecimal] at hraw
      cases hraw
    by_cases hhex : HexText (dropFinalNewline data)
    · rw [classify_hex data hdecimal hhex] at hraw
      cases hraw
    by_cases hwif : WifText (dropFinalNewline data)
    · rw [classify_wif data hdecimal hhex hwif] at hraw
      cases hraw
    rw [classify_phrase data hdecimal hhex hwif hphrase] at hraw
    cases hraw
  · intro hphrase
    have hdecimal := mt phraseText_of_decimalText hphrase
    have hhex := mt phraseText_of_hexText hphrase
    have hwif := mt phraseText_of_wifText hphrase
    rw [classify_past_texts data hdecimal hhex hwif hphrase]
    exact if_pos ((isRaw_iff data).mpr h)

/-- Dropping a line feed loses no other byte. -/
theorem mem_dropFinalNewline {data : Bytes} {byte : UInt8} (hne : byte ≠ 10) :
    byte ∈ dropFinalNewline data ↔ byte ∈ data := by
  rw [dropFinalNewline]
  split_ifs with hlast
  · obtain ⟨front, rfl⟩ := List.getLast?_eq_some_iff.mp hlast
    rw [List.dropLast_concat, List.mem_append, List.mem_singleton, or_iff_left hne]
  · rfl

theorem dropFinalNewline_ne_nil {data : Bytes} (h : 1 < data.length) : dropFinalNewline data ≠ [] := by
  intro hnil
  have hlength := congrArg List.length hnil
  rw [dropFinalNewline] at hlength
  split_ifs at hlength
  · rw [List.length_dropLast, List.length_nil] at hlength
    omega
  · rw [List.length_nil] at hlength
    omega

theorem phraseText_dropFinalNewline_iff (data : Bytes) (h : 1 < data.length) :
    PhraseText (dropFinalNewline data) ↔ ¬ ∃ byte ∈ data, byte = 0 ∨ 128 ≤ byte := by
  have hrange (byte : UInt8) : (1 ≤ byte ∧ byte ≤ 127) ↔ ¬ (byte = 0 ∨ 128 ≤ byte) := by
    rw [← UInt8.toNat_inj]
    simp only [UInt8.le_iff_toNat_le, UInt8.reduceToNat]
    omega
  rw [PhraseText, and_iff_right (dropFinalNewline_ne_nil h)]
  constructor
  · rintro hall ⟨byte, hb, hbyte⟩
    have hten : byte ≠ 10 := by
      rintro rfl
      exact absurd hbyte (by decide)
    exact (hrange byte).mp (hall byte ((mem_dropFinalNewline hten).mpr hb)) hbyte
  · intro hnone byte hb
    by_cases hten : byte = 10
    · rw [hten]
      decide
    · refine (hrange byte).mpr fun hbyte => hnone ⟨byte, ?_, hbyte⟩
      exact (mem_dropFinalNewline hten).mp hb

theorem rawData_toRaw : RawData key.toRaw := by
  obtain ⟨scalar, compressed⟩ := key
  cases compressed
  · exact Or.inl scalar.length_eq
  · refine Or.inr ⟨PrivateKey.length_marked scalar _, ?_⟩
    rw [PrivateKey.toRaw_compressed, PrivateKey.getD_marked]
    decide

/-- Raw bytes are known by a byte that no phrase may have. -/
theorem ofData_toRaw_iff :
    ofData key.toRaw = .ok ⟨key, .raw, none⟩ ↔ ∃ byte ∈ key.toRaw, byte = 0 ∨ 128 ≤ byte := by
  have hlength : 1 < key.toRaw.length := by
    rw [PrivateKey.length_toRaw]
    split_ifs
    · decide
    · decide
  have hclass := classify_eq_raw_iff key.toRaw (rawData_toRaw key)
  rw [phraseText_dropFinalNewline_iff _ hlength, not_not] at hclass
  rw [← hclass]
  constructor
  · intro hguess
    exact (format_of_ofData _ hguess).1
  · intro hraw
    rw [ofData_eq_read _ hraw, read, PrivateKey.ofRaw_toRaw]
    rfl

/-- What is written for a key is guessed right, a line feed behind a text aside, unless an earlier
format claims it: hexadecimal digits and wallet import format without a letter are decimal numerals,
and raw bytes without a zero or a byte above ASCII are phrases. Wallet import format has a letter on
the main network and for every compressed key. -/
theorem recovers_written_keys (network : Network) :
    (∀ lineFeed, ofData (textData key.toDecimal lineFeed) =
      .ok ⟨⟨key.scalar, true⟩, .decimal, none⟩) ∧
    (∀ lineFeed, ofData (textData key.toHex lineFeed) = .ok ⟨key, .hex, none⟩ ↔
      ∃ c ∈ key.toHex.toList, c.isAlpha = true) ∧
    (∀ lineFeed, ofData (textData (Wif.encode key network) lineFeed) =
        .ok ⟨key, .wif, some network⟩ ↔
      network = .bitcoin ∨ key.compressed = true ∨
        ∃ c ∈ (Wif.encode key network).toList, c.isDigit = false) ∧
    (ofData key.toRaw = .ok ⟨key, .raw, none⟩ ↔ ∃ byte ∈ key.toRaw, byte = 0 ∨ 128 ≤ byte) := by
  refine ⟨ofData_toDecimal key, ofData_toHex_iff key, fun lineFeed => ?_, ofData_toRaw_iff key⟩
  rw [ofData_wif_iff, ← or_assoc]
  constructor
  · exact Or.inr
  · rintro (hcertain | hletter)
    · exact Wif.exists_letter_encode key network hcertain
    · exact hletter

end BitcoinKeys.KeyGuess
