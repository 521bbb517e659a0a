import BitcoinKeys.Proofs.Except
import BitcoinKeys.Proofs.Hex
import BitcoinKeys.Proofs.Text.Case
import BitcoinKeys.Proofs.Text.Utf8

namespace BitcoinKeys.Hex

theorem digitValue_eq_ok_iff (byte : UInt8) (v : Nat) :
    digitValue byte = .ok v ↔ digitValue? byte = some v := by
  rw [digitValue]
  cases digitValue? byte <;> simp

/-- The digits that are read have the values of the halves of the bytes. -/
theorem map_digitValue?_of_decodePairs {text bytes : Bytes} (heven : text.length % 2 = 0)
    (h : decodePairs text = .ok bytes) : text.map digitValue? = (halves bytes).map some := by
  fun_induction decodePairs text generalizing bytes with
  | case1 high low rest ih =>
    obtain ⟨v, hv, h⟩ := (bind_eq_ok_iff ..).mp h
    obtain ⟨w, hw, h⟩ := (bind_eq_ok_iff ..).mp h
    obtain ⟨read, hread, h⟩ := (bind_eq_ok_iff ..).mp h
    cases h
    rw [digitValue_eq_ok_iff] at hv hw
    have hvlt := digitValue?_lt hv
    have hwlt := digitValue?_lt hw
    have hbyte : (UInt8.ofNat (16 * v + w)).toNat = 16 * v + w :=
      UInt8.toNat_ofNat_of_lt' (by rw [UInt8.size]; omega)
    have hhigh : (16 * v + w) / 16 = v := by omega
    have hlow : (16 * v + w) % 16 = w := by omega
    have hrest : rest.length % 2 = 0 := by
      rw [List.length_cons, List.length_cons] at heven
      omega
    rw [halves_cons, hbyte, hhigh, hlow, List.map_cons, List.map_cons, List.map_cons, List.map_cons,
      hv, hw, ih hrest hread]
  -- less than a pair: nothing at all, since the length is even
  | case2 text hpairs =>
    cases h
    rcases text with _ | ⟨byte, _ | ⟨low, rest⟩⟩
    · rfl
    · cases heven
    · exact absurd rfl (hpairs byte low rest)

/-- The lower case form of a character is a digit exactly if the character is read with its
value. -/
theorem digitValue?_eq_some_iff {c : Char} {v : Nat} (hc : c.toNat < 128) (hv : v < 16) :
    digitValue? (UInt8.ofNat c.toNat) = some v ↔ c.toLower = digit v := by
  have hall : ∀ n < 128, ∀ v < 16,
      digitValue? (UInt8.ofNat n) = some v ↔ (Char.ofNat n).toLower = digit v := by decide
  have h := hall c.toNat hc v hv
  rwa [Char.ofNat_toNat] at h

theorem map_eq_map_congr {α β γ δ : Type} {f : α → γ} {g : β → γ} {f' : α → δ} {g' : β → δ}
    {xs : List α} {ys : List β} (h : ∀ x ∈ xs, ∀ y ∈ ys, f x = g y ↔ f' x = g' y) :
    xs.map f = ys.map g ↔ xs.map f' = ys.map g' := by
  induction xs generalizing ys with
  | nil =>
    rw [List.map_nil, List.map_nil, List.nil_eq, List.nil_eq, List.map_eq_nil_iff,
      List.map_eq_nil_iff]
  | cons x xs ih =>
    cases ys with
    | nil => exact iff_of_false nofun nofun
    | cons y ys =>
      rw [List.map_cons, List.map_cons, List.map_cons, List.map_cons, List.cons.injEq,
        List.cons.injEq, h x List.mem_cons_self y List.mem_cons_self,
        ih fun x' hx y' hy => h x' (List.mem_cons_of_mem x hx) y' (List.mem_cons_of_mem y hy)]

/-- A text in ASCII is read as digits exactly if its lower case form consists of them. -/
theorem map_digitValue?_utf8_iff {text : String} {bytes : Bytes} (h : Text.IsAscii text.toList) :
    (Text.utf8 text).map digitValue? = (halves bytes).map some ↔
      Text.lower text = encode bytes := by
  have hdigits : text.toList.map (digitValue? ∘ fun c => UInt8.ofNat c.toNat) =
      (halves bytes).map some ↔ text.toList.map Char.toLower = (halves bytes).map digit :=
    map_eq_map_congr fun c hc v hv => digitValue?_eq_some_iff (h c hc) (halves_lt bytes v hv)
  rw [Text.utf8_of_ascii text h, List.map_map, hdigits, ← String.toList_inj, Text.toList_lower,
    toList_encode]

theorem isAscii_of_digits {text : String} (h : ∀ byte ∈ Text.utf8 text, isDigit byte = true) :
    Text.IsAscii text.toList :=
  (Text.isAscii_iff_bytes text).mpr fun byte hbyte =>
    UInt8.lt_iff_toNat_lt.mp (lt_128_of_isDigit (h byte hbyte))

theorem isAscii_of_lower_eq_encode {text : String} {bytes : Bytes}
    (h : Text.lower text = encode bytes) : Text.IsAscii text.toList := by
  intro c hc
  apply Text.lt_128_of_toLower
  apply isAscii_encode bytes
  rw [← h, Text.toList_lower]
  exact List.mem_map_of_mem hc

/-- What is read as bytes is the text written for them, in either case. -/
theorem decode_eq_ok_iff (text : String) (bytes : Bytes) :
    decode text = .ok bytes ↔ Text.lower text = encode bytes := by
  rw [decode, decodeAscii]
  constructor
  · intro h
    split_ifs at h with hodd
    have hmap := map_digitValue?_of_decodePairs (not_not.mp hodd) h
    -- every byte is a digit, so no character is outside ASCII
    have hdigits : ∀ byte ∈ Text.utf8 text, isDigit byte = true := by
      intro byte hbyte
      have hmem := List.mem_map_of_mem (f := digitValue?) hbyte
      rw [hmap] at hmem
      obtain ⟨v, -, hv⟩ := List.mem_map.mp hmem
      rw [isDigit, ← hv, Option.isSome_some]
    exact (map_digitValue?_utf8_iff (isAscii_of_digits hdigits)).mp hmap
  · intro h
    have hmap := (map_digitValue?_utf8_iff (isAscii_of_lower_eq_encode h)).mpr h
    have hlength := congrArg List.length hmap
    rw [List.length_map, List.length_map, length_halves] at hlength
    rw [if_neg (by omega)]
    exact decodePairs_of_halves bytes _ hmap

end BitcoinKeys.Hex
