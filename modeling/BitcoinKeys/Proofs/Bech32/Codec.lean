import BitcoinKeys.Proofs.Bech32.Checksum
import BitcoinKeys.Proofs.Bech32.Letters

/-! Bech32 texts. A text that is read is in one case, and its lower case form is the one text that is
written for the part and the symbols read from it. -/
namespace BitcoinKeys.Bech32

/-- The last '1' is the separator: behind it there is no other. -/
theorem splitSeparator?_eq_some_iff (text part data : List Char) :
    splitSeparator? text = some (part, data) ↔ text = part ++ '1' :: data ∧ '1' ∉ data := by
  have hsplit := List.takeWhile_append_dropWhile (p := (· ≠ '1')) (l := text.reverse)
  rw [splitSeparator?]
  constructor
  · intro h
    cases hd : text.reverse.dropWhile (· ≠ '1') with
    | nil =>
      simp only [hd] at h
      cases h
    | cons separator backward =>
      simp only [hd] at h
      cases h
      -- seen from the back, the separator is the first '1'
      have hne : text.reverse.dropWhile (· ≠ '1') ≠ [] := hd ▸ List.cons_ne_nil _ _
      have hone := List.head_dropWhile_not (· ≠ '1') hne
      simp only [hd, List.head_cons, decide_eq_false_iff_not, ne_eq, not_not] at hone
      constructor
      · have hback := congrArg List.reverse hsplit
        rw [hd, hone, List.reverse_append, List.reverse_cons, List.reverse_reverse,
          List.append_assoc] at hback
        exact hback.symm
      · intro hmem
        simpa using List.mem_takeWhile_imp (List.mem_reverse.mp hmem)
  · rintro ⟨rfl, hdata⟩
    have hall : ∀ c ∈ data.reverse, decide (c ≠ '1') = true := by
      intro c hc
      rw [decide_eq_true_iff]
      rintro rfl
      exact hdata (List.mem_reverse.mp hc)
    have hback : (part ++ '1' :: data).reverse = data.reverse ++ '1' :: part.reverse := by simp
    simp only [hback, List.takeWhile_append_of_pos hall, List.dropWhile_append_of_pos hall,
      List.takeWhile_cons, List.dropWhile_cons]
    simp

structure IsPart (part : List Char) : Prop where
  ne_nil : part ≠ []
  short : Text.byteCount part ≤ 83
  printable : ∀ c ∈ part, IsPrintable c

/-- The case of the part decides which letters may follow the separator. -/
theorem partCase_and_admits (part rest : List Char) :
    (∃ seen, partCase part = .ok seen ∧ seen.Admits rest) ↔ IsPart part ∧ OneCase (part ++ rest) := by
  rw [partCase]
  by_cases h : part = [] ∨ 83 < Text.byteCount part
  · rw [if_pos h]
    constructor
    · rintro ⟨seen, hseen, -⟩
      cases hseen
    · rintro ⟨⟨hne, hshort, -⟩, -⟩
      rcases h with h | h
      · exact absurd h hne
      · omega
  · rw [if_neg h, foldlM_pushPartCharacter]
    rw [not_or, Nat.not_lt] at h
    exact ⟨fun hp => ⟨⟨h.1, h.2, hp.1⟩, hp.2⟩, fun hp => ⟨hp.1.printable, hp.2⟩⟩

theorem partCase_isOk_iff (part : List Char) :
    (∃ seen, partCase part = .ok seen) ↔ IsPart part ∧ OneCase part := by
  have h := partCase_and_admits part []
  rw [List.append_nil] at h
  rw [← h]
  exact exists_congr fun seen => (and_iff_left (admits_nil seen)).symm

theorem isPrintable_toLower (c : Char) : IsPrintable c.toLower ↔ IsPrintable c := by
  by_cases hu : c.isUpper = true
  · have hrange : 65 ≤ c.toNat ∧ c.toNat ≤ 90 := by
      simpa [Char.isUpper, UInt32.le_iff_toNat_le, ← Char.toNat_val] using hu
    have hvalid : (c.toNat + 32).isValidChar := by
      rw [Nat.isValidChar]
      omega
    rw [Char.toLower_eq_of_isUpper hu, IsPrintable, IsPrintable, Char.toNat_ofNat, if_pos hvalid]
    omega
  · rw [Char.toLower_eq_of_not_isUpper hu]

/-- Nothing but '1' has '1' as its lower case form. -/
theorem toLower_eq_one (c : Char) (h : c.toLower = '1') : c = '1' := by
  by_cases hu : c.isUpper = true
  · have halpha : c.toLower.isAlpha = true := by
      rw [Char.isAlpha_toLower_eq_isAlpha, Char.isAlpha, hu, Bool.true_or]
    rw [h] at halpha
    cases halpha
  · rwa [Char.toLower_eq_of_not_isUpper hu] at h

theorem isPart_iff (part : List Char) :
    IsPart part ↔ part ≠ [] ∧ part.length ≤ 83 ∧ ∀ c ∈ part, IsPrintable c := by
  have hcount (h : ∀ c ∈ part, IsPrintable c) : Text.byteCount part = part.length :=
    Text.byteCount_of_ascii part fun c hc => Nat.lt_of_le_of_lt (h c hc).2 (by decide)
  constructor
  · rintro ⟨hne, hshort, hp⟩
    exact ⟨hne, hcount hp ▸ hshort, hp⟩
  · rintro ⟨hne, hshort, hp⟩
    exact ⟨hne, (hcount hp).symm ▸ hshort, hp⟩

theorem isPart_lower (part : List Char) : IsPart (part.map Char.toLower) ↔ IsPart part := by
  rw [isPart_iff, isPart_iff, List.length_map, ne_eq, List.map_eq_nil_iff]
  simp only [List.forall_mem_map, isPrintable_toLower, ne_eq]

/-- The separator is no letter. -/
theorem oneCase_separator (part data : List Char) :
    OneCase (part ++ '1' :: data) ↔ OneCase (part ++ data) := by
  have hupper : Char.isUpper '1' = false := rfl
  have hlower : Char.isLower '1' = false := rfl
  simp only [OneCase, List.forall_mem_append, List.forall_mem_cons, hupper, hlower, true_and]

/-- Writing fails only for the part: its characters, its length or its case. -/
theorem encode_eq_ok_iff (part text : String) (symbols : List Symbol) :
    encode part symbols = .ok text ↔
      (IsPart part.toList ∧ OneCase part.toList) ∧
        text.toList = part.toList.map Char.toLower ++
          '1' :: (symbols ++ checksum (part.toList.map Char.toLower) symbols).map Symbol.char := by
  rw [encode, bind_eq_ok_iff, ← partCase_isOk_iff]
  constructor
  · rintro ⟨seen, hseen, htext⟩
    cases htext
    exact ⟨⟨seen, hseen⟩, String.toList_ofList⟩
  · rintro ⟨⟨seen, hseen⟩, htext⟩
    have hwritten : String.ofList (part.toList.map Char.toLower ++
        '1' :: (symbols ++ checksum (part.toList.map Char.toLower) symbols).map Symbol.char) =
        text := by
      rw [← htext, String.ofList_toList]
    exact ⟨seen, hseen, congrArg Except.ok hwritten⟩

/-- Any symbols can be written under a part in one case. -/
theorem exists_encode {part : String} (hpart : IsPart part.toList) (hcase : OneCase part.toList)
    (symbols : List Symbol) : ∃ text, encode part symbols = .ok text := by
  obtain ⟨seen, hseen⟩ := (partCase_isOk_iff part.toList).mpr ⟨hpart, hcase⟩
  exact ⟨_, (bind_eq_ok_iff ..).mpr ⟨seen, hseen, rfl⟩⟩

theorem isPrintable_of_encode {part text : String} {symbols : List Symbol}
    (h : encode part symbols = .ok text) : ∀ c ∈ text.toList, IsPrintable c := by
  obtain ⟨⟨hpart, -⟩, htext⟩ := (encode_eq_ok_iff ..).mp h
  intro c hc
  rw [htext, List.mem_append, List.mem_cons] at hc
  rcases hc with hc | rfl | hc
  · obtain ⟨d, hd, rfl⟩ := List.mem_map.mp hc
    exact (isPrintable_toLower d).mpr (hpart.printable d hd)
  · exact ⟨by decide, by decide⟩
  · obtain ⟨symbol, -, rfl⟩ := List.mem_map.mp hc
    exact isPrintable_char symbol

/-- What is written has no upper case letter. -/
theorem isUpper_of_encode {part text : String} {symbols : List Symbol}
    (h : encode part symbols = .ok text) : ∀ c ∈ text.toList, c.isUpper = false := by
  intro c hc
  rw [((encode_eq_ok_iff ..).mp h).2, List.mem_append, List.mem_cons] at hc
  rcases hc with hc | rfl | hc
  · obtain ⟨d, -, rfl⟩ := List.mem_map.mp hc
    exact Char.isUpper_toLower_eq_false d
  · rfl
  · obtain ⟨symbol, -, rfl⟩ := List.mem_map.mp hc
    exact isUpper_char symbol

/-- Both cases of a text that is written are in ASCII. -/
theorem isAscii_of_encode_lower {part text : String} {symbols : List Symbol}
    (h : encode part symbols = .ok (Text.lower text)) : Text.IsAscii text.toList := by
  intro c hc
  have hmem := List.mem_map_of_mem (f := Char.toLower) hc
  rw [← Text.toList_lower] at hmem
  have hlower := (isPrintable_toLower c).mp (isPrintable_of_encode h _ hmem)
  exact Nat.lt_of_le_of_lt hlower.2 (by decide)

/-- Both sides are read exactly if they have one case, symbols behind the separator and a checksum
that holds. -/
theorem decodeSides_eq_ok_iff (part data : List Char) (read : String) (symbols : List Symbol) :
    decodeSides part data = .ok (read, symbols) ↔
      IsPart part ∧ OneCase (part ++ data) ∧ read = String.ofList (part.map Char.toLower) ∧
        ∃ all, data.map Char.toLower = all.map Symbol.char ∧
          checksumHolds (part.map Char.toLower) all = true ∧
          symbols = all.take (all.length - 6) := by
  have hsides := partCase_and_admits part data
  simp only [decodeSides, bind_eq_ok_iff, readSymbols_eq_ok_iff]
  constructor
  · rintro ⟨seen, hseen, all, ⟨hadmits, hall⟩, h⟩
    obtain ⟨hpart, hcase⟩ := hsides.mp ⟨seen, hseen, hadmits⟩
    by_cases hsum : checksumHolds (part.map Char.toLower) all = true
    · rw [if_pos hsum] at h
      cases h
      exact ⟨hpart, hcase, rfl, all, hall, hsum, rfl⟩
    · rw [if_neg hsum] at h
      cases h
  · rintro ⟨hpart, hcase, rfl, all, hall, hsum, rfl⟩
    obtain ⟨seen, hseen, hadmits⟩ := hsides.mpr ⟨hpart, hcase⟩
    exact ⟨seen, hseen, all, ⟨hadmits, hall⟩, if_pos hsum⟩

/-- The checksum is the only end that holds, so it can be told from the symbols in front of it. -/
theorem decodeSides_eq_ok_iff_written (part data : List Char) (read : String) (symbols : List Symbol)
    (h : 6 ≤ Text.byteCount data) :
    decodeSides part data = .ok (read, symbols) ↔
      IsPart part ∧ OneCase (part ++ data) ∧ read = String.ofList (part.map Char.toLower) ∧
        data.map Char.toLower =
          (symbols ++ checksum (part.map Char.toLower) symbols).map Symbol.char := by
  rw [decodeSides_eq_ok_iff]
  refine and_congr_right fun _ => and_congr_right fun _ => and_congr_right fun _ => ?_
  constructor
  · rintro ⟨all, hall, hsum, rfl⟩
    have hlength : 6 ≤ all.length := by
      rw [← length_of_lower_symbols hall,
        ← Text.byteCount_of_ascii data (isAscii_of_lower_symbols hall)]
      exact h
    rw [← (checksumHolds_iff_drop _ all hlength).mp hsum, List.take_append_drop, hall]
  · intro hall
    refine ⟨_, hall, ?_, ?_⟩
    · exact (checksumHolds_append_iff _ _ _ (length_checksum ..)).mpr rfl
    · rw [List.length_append, length_checksum, Nat.add_sub_cancel, List.take_left]

/-- Reading in terms of the two sides of the separator. -/
theorem decode_eq_ok_iff_sides (text part : String) (symbols : List Symbol) :
    decode text = .ok (part, symbols) ↔
      Text.byteLength text ≤ maxLength ∧ 8 ≤ Text.byteLength text ∧
        ∃ front data, (text.toList = front ++ '1' :: data ∧ '1' ∉ data) ∧
          6 ≤ Text.byteCount data ∧ decodeSides front data = .ok (part, symbols) := by
  simp only [decode, ← splitSeparator?_eq_some_iff]
  by_cases hlong : maxLength < Text.byteLength text
  · rw [if_pos hlong]
    constructor
    · intro h
      cases h
    · rintro ⟨hle, -⟩
      omega
  rw [if_neg hlong]
  -- the tests of the reader one after the other; a text that fails one of them lacks its bound
  by_cases hshort : Text.byteLength text < 8
  · rw [if_pos hshort]
    constructor
    · intro h
      cases h
    · rintro ⟨-, hge, -⟩
      omega
  rw [if_neg hshort]
  cases hsplit : splitSeparator? text.toList with
  | none => simp
  | some sides =>
    obtain ⟨front, data⟩ := sides
    by_cases hdata : Text.byteCount data < 6
    · simp only [hdata, if_true]
      constructor
      · intro h
        cases h
      · rintro ⟨-, -, front', data', hsides, hge, -⟩
        cases hsides
        omega
    · simp only [hdata, if_false]
      constructor
      · intro h
        exact ⟨by omega, by omega, front, data, rfl, by omega, h⟩
      · rintro ⟨-, -, front', data', hsides, -, h⟩
        cases hsides
        exact h

/-- Reading accepts exactly the texts in one case, within the length limit, whose lower case form is
written for what is read. -/
theorem decode_eq_ok_iff (text part : String) (symbols : List Symbol) :
    decode text = .ok (part, symbols) ↔
      Text.byteLength text ≤ maxLength ∧ OneCase text.toList ∧
        (∀ c ∈ part.toList, c.isUpper = false) ∧
        encode part symbols = .ok (Text.lower text) := by
  rw [decode_eq_ok_iff_sides, encode_eq_ok_iff, Text.toList_lower]
  constructor
  · rintro ⟨hlong, -, front, data, ⟨htext, -⟩, hdata, hsides⟩
    obtain ⟨hpart, hcase, rfl, hall⟩ := (decodeSides_eq_ok_iff_written _ _ _ _ hdata).mp hsides
    have hfront : (front.map Char.toLower).map Char.toLower = front.map Char.toLower := by
      rw [List.map_map]
      exact List.map_congr_left fun c _ => Char.toLower_toLower_eq_toLower c
    have hno : ∀ c ∈ front.map Char.toLower, c.isUpper = false := by
      intro c hc
      obtain ⟨d, -, rfl⟩ := List.mem_map.mp hc
      exact Char.isUpper_toLower_eq_false d
    rw [String.toList_ofList, hfront, ← hall, htext]
    refine ⟨hlong, (oneCase_separator ..).mpr hcase, hno,
      ⟨(isPart_lower front).mpr hpart, Or.inl hno⟩, ?_⟩
    rw [List.map_append, List.map_cons]
    rfl
  · rintro ⟨hlong, hcase, hno, ⟨hpart, -⟩, htext⟩
    have hlower : part.toList.map Char.toLower = part.toList := by
      rw [← Text.toList_lower, Text.lower_of_no_upper part hno]
    rw [hlower] at htext
    -- the written text falls apart at its separator, and so does the text that is read
    obtain ⟨front, tail, htail, hfront, hrest⟩ := List.map_eq_append_iff.mp htext
    obtain ⟨separator, data, rfl, hseparator, hall⟩ := List.map_eq_cons_iff.mp hrest
    obtain rfl := toLower_eq_one separator hseparator
    have hlength : 6 ≤ data.length := by
      rw [length_of_lower_symbols hall, List.length_append, length_checksum]
      omega
    have hdata := hlength.trans (Text.length_le_byteCount data)
    have hfrontPart : IsPart front := (isPart_lower front).mp (hfront ▸ hpart)
    refine ⟨hlong, ?_, front, data, ⟨htail, one_notMem_of_lower_symbols hall⟩, hdata, ?_⟩
    · have hbytes := Text.length_le_byteCount text.toList
      have hpos := List.length_pos_iff.mpr hfrontPart.ne_nil
      rw [htail, List.length_append, List.length_cons, ← htail] at hbytes
      rw [Text.byteLength]
      omega
    · rw [htail, oneCase_separator] at hcase
      rw [decodeSides_eq_ok_iff_written _ _ _ _ hdata, hfront, String.ofList_toList]
      exact ⟨hfrontPart, hcase, rfl, hall⟩

end BitcoinKeys.Bech32
