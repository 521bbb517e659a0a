import BitcoinKeys.Proofs.Bech32.Canonical

/-! Errors that the checksum finds. Six symbols fit into the register side by side, and what follows them
mixes the register without loss, so a change within six symbols in a row never leaves the remainder as
it was. -/
namespace BitcoinKeys.Bech32

/-- The last bits of the five generators are independent; all 32 symbols are tried. -/
theorem toNat_feedback_mod : ∀ top : Symbol, (feedback top).toNat % 32 = 0 → top = 0 := by decide

/-- A symbol that leaves the register on top shows in the five bits that come in below. -/
theorem eq_zero_of_push_zero {x : Remainder} (h : x.push 0 = 0) : x = 0 := by
  rw [Remainder.push] at h
  have hlow := congrArg BitVec.toNat (BitVec.xor_eq_zero_iff.mp h)
  have happend : (x.extractLsb' 0 25 ++ (0 : Symbol)).toNat = (x.extractLsb' 0 25).toNat * 32 := by
    rw [BitVec.toNat_append, Nat.shiftLeft_eq]
    exact Nat.or_zero _
  have htop : x.extractLsb' 25 5 = 0 := by
    apply toNat_feedback_mod
    rw [← hlow, happend, Nat.mul_mod_left]
  have hfeedback : (feedback 0).toNat = 0 := by decide
  rw [happend, htop, hfeedback] at hlow
  have hquot := congrArg BitVec.toNat htop
  apply BitVec.eq_of_toNat_eq
  rw [BitVec.extractLsb'_toNat, Nat.shiftRight_zero] at hlow
  rw [BitVec.extractLsb'_toNat, Nat.shiftRight_eq_div_pow] at hquot
  have hx := x.isLt
  change x.toNat / 2 ^ 25 % 2 ^ 5 = 0 at hquot
  change x.toNat = 0
  omega

/-- A register that took in a symbol tells what it was before. -/
theorem push_injective (symbol : Symbol) :
    Function.Injective fun register : Remainder => register.push symbol := by
  intro x y h
  have hxor := push_xor x y symbol symbol
  rw [show x.push symbol = y.push symbol from h, BitVec.xor_self, BitVec.xor_self] at hxor
  exact BitVec.xor_eq_zero_iff.mp (eq_zero_of_push_zero hxor)

theorem foldl_push_injective (symbols : List Symbol) :
    Function.Injective fun register : Remainder => symbols.foldl Remainder.push register := by
  induction symbols with
  | nil => exact fun x y h => h
  | cons symbol symbols ih =>
    intro x y h
    exact push_injective symbol (ih h)

/-- Behind the same register, up to six symbols are told apart by what they leave. -/
theorem eq_of_foldl_push_eq {xs ys : List Symbol} (register : Remainder)
    (hlength : xs.length = ys.length) (hshort : xs.length ≤ 6)
    (h : xs.foldl Remainder.push register = ys.foldl Remainder.push register) : xs = ys := by
  have hzero : register ^^^ 0 = register := BitVec.xor_zero
  have hx := foldl_push_xor xs register 0
  have hy := foldl_push_xor ys register 0
  rw [hzero] at hx hy
  -- the common part of both is what the register alone would leave
  have hown : xs.foldl Remainder.push 0 = ys.foldl Remainder.push 0 := by
    rw [hx, hy, hlength] at h
    generalize (List.replicate ys.length (0 : Symbol)).foldl Remainder.push register = common at h
    have hcancel := congrArg (common ^^^ ·) h
    simpa only [← BitVec.xor_assoc, BitVec.xor_self, BitVec.zero_xor] using hcancel
  have hvalue := congrArg BitVec.toNat hown
  rw [toNat_foldl_push xs 0 0 (by decide) (by omega),
    toNat_foldl_push ys 0 0 (by decide) (by omega), hlength] at hvalue
  apply map_toNat_injective
  refine Radix.value_injective_of_length 32 (by decide) _ _ ?_ (map_toNat_lt xs) (map_toNat_lt ys)
    (Nat.add_left_cancel hvalue)
  rw [List.length_map, List.length_map, hlength]

/-- Up to six symbols in a row cannot be changed without a change of the remainder. -/
theorem eq_of_remainder_eq (front back : List Symbol) {xs ys : List Symbol}
    (hlength : xs.length = ys.length) (hshort : xs.length ≤ 6)
    (h : remainder (front ++ (xs ++ back)) = remainder (front ++ (ys ++ back))) : xs = ys := by
  simp only [remainder, List.foldl_append] at h
  exact eq_of_foldl_push_eq _ hlength hshort (foldl_push_injective back h)

/-- One character is replaced, or two neighbours that differ change places. -/
inductive Mistyped : List Char → List Char → Prop
  | replaced (front back : List Char) (right wrong : Char) (h : wrong ≠ right) :
      Mistyped (front ++ right :: back) (front ++ wrong :: back)
  | swapped (front back : List Char) (first second : Char) (h : first ≠ second) :
      Mistyped (front ++ first :: second :: back) (front ++ second :: first :: back)

/-- In either case there is a first character that differs, and at most one more. -/
theorem Mistyped.exists_window {text typed : List Char} (h : Mistyped text typed) :
    ∃ front right wrong more others back, wrong ≠ right ∧ more.length = others.length ∧
      more.length ≤ 1 ∧ text = front ++ right :: (more ++ back) ∧
      typed = front ++ wrong :: (others ++ back) := by
  cases h with
  | replaced front back right wrong h =>
    exact ⟨front, right, wrong, [], [], back, h, rfl, Nat.zero_le 1, rfl, rfl⟩
  | swapped front back first second h =>
    exact ⟨front, first, second, [second], [first], back, h.symm, rfl, Nat.le_refl 1, rfl, rfl⟩

/-- What two texts have in common at their beginning lies in front of the first difference. -/
theorem exists_front_of_common_start {start xs ys front : List Char} {right wrong : Char}
    {tail tail' : List Char} (hne : wrong ≠ right) (hx : start ++ xs = front ++ right :: tail)
    (hy : start ++ ys = front ++ wrong :: tail') :
    ∃ rest, xs = rest ++ right :: tail ∧ ys = rest ++ wrong :: tail' := by
  induction start generalizing front with
  | nil => exact ⟨front, hx, hy⟩
  | cons c start ih =>
    cases front with
    | nil =>
      have hright := (List.cons.inj hx).1
      have hwrong := (List.cons.inj hy).1
      exact absurd (hwrong.symm.trans hright) hne
    | cons d front => exact ih (List.cons.inj hx).2 (List.cons.inj hy).2

theorem remainder_checksum (part : List Char) (data : List Symbol) :
    remainder (expand part ++ (data ++ checksum part data)) = 1 := by
  have hholds := (checksumHolds_append_iff part data _ (length_checksum part data)).mpr rfl
  rwa [checksumHolds, decide_eq_true_iff] at hholds

/-- Mistyping a written text never gives another written text of the same part. -/
theorem not_mistyped_of_encode {part text other : String} {symbols symbols' : List Symbol}
    (htext : encode part symbols = .ok text) (hother : encode part symbols' = .ok other) :
    ¬ Mistyped text.toList other.toList := by
  intro h
  obtain ⟨front, right, wrong, more, others, back, hne, hlength, hone, hright, hwrong⟩ :=
    h.exists_window
  rw [((encode_eq_ok_iff ..).mp htext).2, List.append_cons] at hright
  rw [((encode_eq_ok_iff ..).mp hother).2, List.append_cons] at hwrong
  have hsum := remainder_checksum (part.toList.map Char.toLower) symbols
  have hsum' := remainder_checksum (part.toList.map Char.toLower) symbols'
  -- the first difference is among the symbols, where both texts have the remainder one
  obtain ⟨rest, hx, hy⟩ := exists_front_of_common_start hne hright hwrong
  obtain ⟨lead, tail, hsplit, hlead, htail⟩ := List.map_eq_append_iff.mp hx
  obtain ⟨lead', tail', hsplit', hlead', htail'⟩ := List.map_eq_append_iff.mp hy
  rw [← List.cons_append] at htail htail'
  obtain ⟨window, after, rfl, hwindow, hafter⟩ := List.map_eq_append_iff.mp htail
  obtain ⟨window', after', rfl, hwindow', hafter'⟩ := List.map_eq_append_iff.mp htail'
  obtain rfl : lead = lead' := char_injective.list_map (hlead.trans hlead'.symm)
  obtain rfl : after = after' := char_injective.list_map (hafter.trans hafter'.symm)
  have hcount := congrArg List.length hwindow
  have hcount' := congrArg List.length hwindow'
  rw [List.length_map, List.length_cons] at hcount hcount'
  rw [hsplit, ← List.append_assoc] at hsum
  rw [hsplit', ← List.append_assoc, ← hsum] at hsum'
  have hsame : window' = window :=
    eq_of_remainder_eq _ _ (by omega) (by omega) hsum'
  rw [hsame, hwindow] at hwindow'
  exact hne (List.cons.inj hwindow').1.symm

end BitcoinKeys.Bech32
