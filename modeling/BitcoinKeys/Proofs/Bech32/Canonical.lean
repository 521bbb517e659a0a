import BitcoinKeys.Proofs.Bech32.Codec

/-! What is read from a text and the lower case form of the text determine each other. A text with the
checksum of the younger variant of the code is never read. -/
namespace BitcoinKeys.Bech32

def bech32mRemainder : Remainder := 0x2bc830a3

theorem char_injective : Function.Injective Symbol.char := by
  intro a b h
  have hindex := idxOf?_char a
  rw [h, idxOf?_char b] at hindex
  exact BitVec.eq_of_toNat_eq (Option.some.inj hindex).symm

/-- Writing puts the part in lower case first. -/
theorem encode_lower {part text : String} {symbols : List Symbol}
    (h : encode part symbols = .ok text) : encode (Text.lower part) symbols = .ok text := by
  obtain ⟨⟨hpart, -⟩, htext⟩ := (encode_eq_ok_iff ..).mp h
  have hlower : (part.toList.map Char.toLower).map Char.toLower = part.toList.map Char.toLower := by
    rw [List.map_map]
    exact List.map_congr_left fun c _ => Char.toLower_toLower_eq_toLower c
  apply (encode_eq_ok_iff ..).mpr
  rw [Text.toList_lower, hlower, htext]
  refine ⟨⟨(isPart_lower _).mpr hpart, Or.inl fun c hc => ?_⟩, rfl⟩
  obtain ⟨d, -, rfl⟩ := List.mem_map.mp hc
  exact Char.isUpper_toLower_eq_false d

theorem isUpper_lower (text : String) : ∀ c ∈ (Text.lower text).toList, c.isUpper = false := by
  intro c hc
  rw [Text.toList_lower] at hc
  obtain ⟨d, -, rfl⟩ := List.mem_map.mp hc
  exact Char.isUpper_toLower_eq_false d

/-- A written text is read back if it is not too long. -/
theorem decode_of_encode {part text : String} {symbols : List Symbol}
    (h : encode part symbols = .ok text) (hlong : Text.byteLength text ≤ maxLength) :
    decode text = .ok (Text.lower part, symbols) := by
  have hupper := isUpper_of_encode h
  apply (decode_eq_ok_iff ..).mpr
  rw [Text.lower_of_no_upper text hupper]
  exact ⟨hlong, Or.inl hupper, isUpper_lower part, encode_lower h⟩

/-- Only ASCII is read, so a change of case changes no length. -/
theorem byteLength_lower_of_decode {text part : String} {symbols : List Symbol}
    (h : decode text = .ok (part, symbols)) :
    Text.byteLength (Text.lower text) = Text.byteLength text := by
  have hwritten := ((decode_eq_ok_iff ..).mp h).2.2.2
  have hascii := isAscii_of_encode_lower hwritten
  have hlower : Text.lower (Text.lower text) = Text.lower text :=
    Text.lower_of_no_upper _ (isUpper_lower text)
  have hascii' := isAscii_of_encode_lower (hlower.symm ▸ hwritten)
  rw [Text.byteLength, Text.byteLength, Text.byteCount_of_ascii _ hascii,
    Text.byteCount_of_ascii _ hascii', Text.toList_lower, List.length_map]

/-- All texts that are read alike have one lower case form, which is read like them. -/
theorem existsUnique_lower_of_decode {text part : String} {symbols : List Symbol}
    (h : decode text = .ok (part, symbols)) :
    ∃! written, (∀ c ∈ written.toList, c.isUpper = false) ∧
      decode written = .ok (part, symbols) := by
  have hself {written : String} (hupper : ∀ c ∈ written.toList, c.isUpper = false) :
      Text.lower written = written := Text.lower_of_no_upper written hupper
  obtain ⟨hlong, -, hpart, hwritten⟩ := (decode_eq_ok_iff ..).mp h
  refine ⟨Text.lower text, ⟨isUpper_lower text, ?_⟩, ?_⟩
  · rw [← byteLength_lower_of_decode h] at hlong
    rw [decode_of_encode hwritten hlong, hself hpart]
  · rintro other ⟨hupper, hother⟩
    have hencoded := ((decode_eq_ok_iff ..).mp hother).2.2.2
    rw [hself hupper, hwritten] at hencoded
    exact (Except.ok.inj hencoded).symm

/-- Everything behind the last '1' is symbols, so a part may have a '1' in it. -/
theorem split_of_decode {text part : String} {symbols : List Symbol}
    (h : decode text = .ok (part, symbols)) :
    ∃ front data, text.toList = front ++ '1' :: data ∧ '1' ∉ data ∧
      part = String.ofList (front.map Char.toLower) ∧ data.length = symbols.length + 6 := by
  obtain ⟨-, -, front, data, ⟨htext, hone⟩, hdata, hsides⟩ := (decode_eq_ok_iff_sides ..).mp h
  obtain ⟨-, -, hpart, hall⟩ := (decodeSides_eq_ok_iff_written _ _ _ _ hdata).mp hsides
  refine ⟨front, data, htext, hone, hpart, ?_⟩
  rw [length_of_lower_symbols hall, List.length_append, length_checksum]

/-- A text of the younger variant is refused, because one remainder cannot be two. -/
theorem decode_bech32m {text : String} {part data : List Char} {symbols : List Symbol}
    (htext : text.toList = part ++ '1' :: data)
    (hsymbols : data.map Char.toLower = symbols.map Symbol.char)
    (hsum : remainder (expand (part.map Char.toLower) ++ symbols) = bech32mRemainder) :
    ∃ fault, decode text = .error fault := by
  cases hread : decode text with
  | error fault => exact ⟨fault, rfl⟩
  | ok result =>
    obtain ⟨-, -, front, back, hsplit, -, hsides⟩ := (decode_eq_ok_iff_sides ..).mp hread
    -- the text splits in one place only, so the symbols read are those of the other variant
    have hother := (splitSeparator?_eq_some_iff text.toList part data).mpr
      ⟨htext, one_notMem_of_lower_symbols hsymbols⟩
    rw [(splitSeparator?_eq_some_iff ..).mpr hsplit] at hother
    obtain ⟨rfl, rfl⟩ := Prod.mk.inj (Option.some.inj hother)
    obtain ⟨-, -, -, all, hall, hholds, -⟩ := (decodeSides_eq_ok_iff ..).mp hsides
    obtain rfl : symbols = all := char_injective.list_map (hsymbols.symm.trans hall)
    rw [checksumHolds, decide_eq_true_iff, hsum] at hholds
    exact absurd hholds (by decide)

/-- Reading is inverse to writing, up to the case of the text. -/
structure ReadsWritten : Prop where
  accepts : ∀ text part symbols, decode text = .ok (part, symbols) ↔
    Text.byteLength text ≤ 90 ∧ OneCase text.toList ∧ (∀ c ∈ part.toList, c.isUpper = false) ∧
      encode part symbols = .ok (Text.lower text)
  round_trip : ∀ text part symbols, (∀ c ∈ part.toList, c.isUpper = false) →
    encode part symbols = .ok text → Text.byteLength text ≤ 90 → decode text = .ok (part, symbols)
  round_trip_lower : ∀ text part symbols, encode part symbols = .ok text →
    Text.byteLength text ≤ 90 → decode text = .ok (Text.lower part, symbols)
  one_lower_case_form : ∀ text part symbols, decode text = .ok (part, symbols) →
    ∃! written, (∀ c ∈ written.toList, c.isUpper = false) ∧ decode written = .ok (part, symbols)
  last_separator : ∀ text part symbols, decode text = .ok (part, symbols) →
    ∃ front data, text.toList = front ++ '1' :: data ∧ '1' ∉ data ∧
      part = String.ofList (front.map Char.toLower) ∧ data.length = symbols.length + 6
  never_bech32m : ∀ text part data symbols, text.toList = part ++ '1' :: data →
    data.map Char.toLower = symbols.map Symbol.char →
    remainder (expand (part.map Char.toLower) ++ symbols) = bech32mRemainder →
    ∃ fault, decode text = .error fault

/-- Reading and writing are inverse to each other for every text, part and list of symbols. -/
theorem reads_exactly_written : ReadsWritten where
  accepts := decode_eq_ok_iff
  round_trip _ _ _ hupper h hlong := by
    rw [decode_of_encode h hlong, Text.lower_of_no_upper _ hupper]
  round_trip_lower _ _ _ h hlong := decode_of_encode h hlong
  one_lower_case_form _ _ _ h := existsUnique_lower_of_decode h
  last_separator _ _ _ h := split_of_decode h
  never_bech32m _ _ _ _ htext hsymbols hsum := decode_bech32m htext hsymbols hsum

/-- A text that is right in the younger variant. -/
example : decode "a1lqfn3a" = .error .badChecksum := by decide

end BitcoinKeys.Bech32
