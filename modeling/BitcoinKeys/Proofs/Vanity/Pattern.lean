import BitcoinKeys.Proofs.Text
import BitcoinKeys.Vanity.Pattern

namespace BitcoinKeys.Vanity

open Text (byteCount byteCount_append splitAtByte? splitAtByte?_eq_some_iff)

/-- A slice between two byte positions is cut at characters on both sides. -/
theorem slice?_eq_some_iff (start length : Nat) (text slice : List Char) :
    slice? start length text = some slice ↔
      ∃ before after, text = before ++ slice ++ after ∧ byteCount before = start ∧
        byteCount slice = length := by
  rw [slice?]
  constructor
  · intro h
    obtain ⟨⟨before, rest⟩, hstart, h⟩ := Option.bind_eq_some_iff.mp h
    obtain ⟨⟨middle, after⟩, hlength, h⟩ := Option.bind_eq_some_iff.mp h
    cases h
    obtain ⟨rfl, hbefore⟩ := (splitAtByte?_eq_some_iff ..).mp hstart
    obtain ⟨rfl, hslice⟩ := (splitAtByte?_eq_some_iff ..).mp hlength
    exact ⟨before, after, (List.append_assoc ..).symm, hbefore, hslice⟩
  · rintro ⟨before, after, rfl, hbefore, hslice⟩
    have hstart : splitAtByte? start (before ++ slice ++ after) = some (before, slice ++ after) :=
      (splitAtByte?_eq_some_iff ..).mpr ⟨List.append_assoc .., hbefore⟩
    have hlength : splitAtByte? length (slice ++ after) = some (slice, after) :=
      (splitAtByte?_eq_some_iff ..).mpr ⟨rfl, hslice⟩
    refine Option.bind_eq_some_iff.mpr ⟨_, hstart, ?_⟩
    exact Option.bind_eq_some_iff.mpr ⟨_, hlength, rfl⟩

theorem Pattern.ofText_eq_ok {text : String} {kind : AddressKind} {pattern : Pattern}
    (h : ofText text kind = .ok pattern) : pattern.symbols = text.toList ∧ pattern.kind = kind := by
  simp only [ofText] at h
  split at h
  · cases h
  split at h
  · split at h
    · cases h
    · cases h
      exact ⟨rfl, rfl⟩
  · cases h

/-- Whether an address has the symbols, in any case, behind the first characters that all
addresses of its kind share. Any symbols are considered here, also more than a pattern may
have. -/
def Carries (kind : AddressKind) (symbols : List Char) (address : String) : Prop :=
  ∃ before slice after, address.toList = before ++ slice ++ after ∧
    byteCount before = kind.patternOffset ∧ byteCount slice = byteCount symbols ∧
    slice.map Char.toLower = symbols.map Char.toLower

theorem isIn_iff_carries (pattern : Pattern) (address : String) :
    pattern.isIn address = true ↔ Carries pattern.kind pattern.symbols address := by
  have hslice := slice?_eq_some_iff pattern.offset (byteCount pattern.symbols) address.toList
  rw [Pattern.isIn]
  cases hread : slice? pattern.offset (byteCount pattern.symbols) address.toList with
  | none =>
    simp only [Bool.false_eq_true, false_iff]
    rintro ⟨before, slice, after, htext, hbefore, hbytes, -⟩
    have hsome := (hslice slice).mpr ⟨before, after, htext, hbefore, hbytes⟩
    rw [hread] at hsome
    cases hsome
  | some found =>
    rw [decide_eq_true_iff]
    constructor
    · intro hsame
      obtain ⟨before, after, htext, hbefore, hbytes⟩ := (hslice found).mp hread
      exact ⟨before, found, after, htext, hbefore, hbytes, hsame⟩
    · rintro ⟨before, slice, after, htext, hbefore, hbytes, hsame⟩
      have hsome := (hslice slice).mpr ⟨before, after, htext, hbefore, hbytes⟩
      rw [hread] at hsome
      cases hsome
      exact hsame

/-- An address in ASCII is long enough for what it carries. -/
theorem length_le_of_carries {kind : AddressKind} {symbols : List Char} {address : String}
    (hascii : Text.IsAscii address.toList) (h : Carries kind symbols address) :
    kind.patternOffset + symbols.length ≤ address.toList.length := by
  obtain ⟨before, slice, after, htext, hbefore, hbytes, -⟩ := h
  have hroom := Text.byteCount_of_ascii _ hascii
  have hsymbols := Text.length_le_byteCount symbols
  rw [htext, byteCount_append, byteCount_append] at hroom
  rw [htext]
  omega

end BitcoinKeys.Vanity
