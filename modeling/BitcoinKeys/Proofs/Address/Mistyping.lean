import BitcoinKeys.Proofs.Address.Form
import BitcoinKeys.Proofs.Bech32.ErrorDetection

/-! Mistyping a witness address. Whatever one character is replaced by and whichever neighbours change
places, the text is no address any more: not on the other network, not in the other case and not in
Base58. -/
namespace BitcoinKeys.Address

open Bech32 (Mistyped encodeAddress)

/-- Only the exchange of the first two characters changes both of them. -/
theorem first_characters_of_mistyped {a b c d : Char} {xs ys : List Char}
    (h : Mistyped (a :: b :: xs) (c :: d :: ys)) : c = a ∨ d = b ∨ (c = b ∧ d = a) := by
  generalize hx : a :: b :: xs = text at h
  generalize hy : c :: d :: ys = typed at h
  cases h with
  | replaced front back right wrong hne =>
    cases front with
    | nil =>
      have hxs := (List.cons.inj hx).2
      rw [← (List.cons.inj hy).2] at hxs
      exact Or.inr (Or.inl (List.cons.inj hxs).1.symm)
    | cons e front => exact Or.inl ((List.cons.inj hy).1.trans (List.cons.inj hx).1.symm)
  | swapped front back first second hne =>
    cases front with
    | nil =>
      obtain ⟨hfirst, hxs⟩ := List.cons.inj hx
      obtain ⟨hsecond, hys⟩ := List.cons.inj hy
      have hb := (List.cons.inj hxs).1
      have hd := (List.cons.inj hys).1
      exact Or.inr (Or.inr ⟨hsecond.trans hb.symm, hd.trans hfirst.symm⟩)
    | cons e front => exact Or.inl ((List.cons.inj hy).1.trans (List.cons.inj hx).1.symm)

/-- One slip takes away at most one character of any sort. -/
theorem countP_le_of_mistyped (p : Char → Bool) {text typed : List Char} (h : Mistyped text typed) :
    text.countP p ≤ typed.countP p + 1 := by
  cases h with
  | replaced front back right wrong =>
    simp only [List.countP_append, List.countP_cons]
    split_ifs <;> omega
  | swapped front back first second =>
    simp only [List.countP_append, List.countP_cons]
    omega

/-- The addresses of one network differ in more, and those of both networks in their first two
characters. -/
theorem not_mistyped_of_encodeAddress {program program' : Bytes} {network network' : Network}
    {text other : String} (htext : encodeAddress program network = .ok text)
    (hother : encodeAddress program' network' = .ok other) :
    ¬ Mistyped text.toList other.toList := by
  by_cases hnetwork : network = network'
  · subst hnetwork
    have hwritten := ((Bech32.encodeAddress_eq_ok_iff ..).mp htext).2
    have hwritten' := ((Bech32.encodeAddress_eq_ok_iff ..).mp hother).2
    exact Bech32.not_mistyped_of_encode hwritten hwritten'
  · intro h
    obtain ⟨tail, htail⟩ := Bech32.exists_tail_of_encodeAddress htext
    obtain ⟨tail', htail'⟩ := Bech32.exists_tail_of_encodeAddress hother
    rw [htail, htail'] at h
    cases network <;> cases network'
    · exact hnetwork rfl
    · exact absurd (first_characters_of_mistyped h) (by decide)
    · exact absurd (first_characters_of_mistyped h) (by decide)
    · exact hnetwork rfl

/-- One of the first two letters stays, and it is in lower case. -/
theorem exists_lower_of_mistyped {program : Bytes} {network : Network} {text : String}
    {typed : List Char} (htext : encodeAddress program network = .ok text)
    (h : Mistyped text.toList typed) : ∃ c ∈ typed, c.isLower = true := by
  obtain ⟨tail, htail⟩ := Bech32.exists_tail_of_encodeAddress htext
  have htwo : 2 ≤ text.toList.countP Char.isLower := by
    rw [htail, List.countP_append]
    cases network
    · exact Nat.le_add_right 2 _
    · exact Nat.le_add_right 2 _
  have hone := countP_le_of_mistyped Char.isLower h
  exact List.countP_pos_iff.mp (by omega)

/-- If a mistyped address could be read, it would be another address in lower case, one slip
away. -/
theorem decodeAddress_mistyped {program : Bytes} {network : Network} {text typed : String}
    (htext : encodeAddress program network = .ok text) (h : Mistyped text.toList typed.toList) :
    ∃ fault, Bech32.decodeAddress typed = .error fault := by
  cases hread : Bech32.decodeAddress typed with
  | error fault => exact ⟨fault, rfl⟩
  | ok result =>
    obtain ⟨other, hother, htyped⟩ := (Bech32.decodeAddress_eq_ok_iff ..).mp hread
    rcases htyped with rfl | rfl
    · exact absurd h (not_mistyped_of_encodeAddress htext hother)
    · obtain ⟨c, hc, hlower⟩ := exists_lower_of_mistyped htext h
      rw [Text.toList_upper] at hc
      obtain ⟨d, -, rfl⟩ := List.mem_map.mp hc
      rw [Char.isLower_toUpper_eq_false] at hlower
      exact absurd hlower Bool.false_ne_true

/-- At least 41 characters are no blanks, more than an address in Base58 has. -/
theorem base58_mistyped {program : Bytes} {network : Network} {text typed : String}
    (htext : encodeAddress program network = .ok text) (h : Mistyped text.toList typed.toList)
    (hash : FixedBytes 20) (network' : Network) :
    base58OfHash hash network' ≠ Text.trimBlank typed := by
  intro hbase58
  have hwritten := ((Bech32.encodeAddress_eq_ok_iff ..).mp htext).2
  have hall : text.toList.countP (!Text.isBlank ·) = 42 := by
    rw [← Bech32.length_of_encode hwritten, List.countP_eq_length]
    intro c hc
    rw [Bech32.isBlank_of_isPrintable (Bech32.isPrintable_of_encode hwritten c hc), Bool.not_false]
  have hkept := countP_le_of_mistyped (!Text.isBlank ·) h
  have htrim := Text.countP_le_length_trimBlank typed
  have hshort := length_base58OfHash_le hash network'
  rw [hbase58] at hshort
  omega

/-- A hash is written as a witness address, and no text that comes from mistyping it is read. -/
theorem mistyped_isRejected (hash : FixedBytes 20) (network : Network) :
    ∃ text, ofHash160 hash .p2wpkh network = .ok text ∧
      ∀ typed : String, Mistyped text.toList typed.toList →
        (∃ fault, Bech32.decodeAddress typed = .error fault) ∧ isValid typed = false := by
  obtain ⟨text, htext⟩ := Bech32.exists_encodeAddress hash.toBytes network hash.length_eq
  refine ⟨text, (bech32OfHash_eq_ok_iff ..).mpr htext, fun typed h => ?_⟩
  obtain ⟨fault, hfault⟩ := decodeAddress_mistyped htext h
  refine ⟨⟨fault, hfault⟩, Bool.eq_false_iff.mpr fun hvalid => ?_⟩
  rw [isValid, hfault, Bool.or_eq_true] at hvalid
  rcases hvalid with hread | hbase58
  · exact Bool.false_ne_true hread
  · obtain ⟨other, network', heq⟩ := (base58_isValid_iff typed).mp hbase58
    exact base58_mistyped htext h other network' heq

end BitcoinKeys.Address
