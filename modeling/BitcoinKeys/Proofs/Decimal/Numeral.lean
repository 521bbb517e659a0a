import BitcoinKeys.Proofs.Bytes
import BitcoinKeys.Proofs.Decimal

/-! Which texts are read as the bytes of a number: the numeral that is written for them, behind any number
of zeros. All other texts are refused, among them those of a number that takes more bytes. -/
namespace BitcoinKeys.Decimal

def IsNumeral (text : String) : Prop := text ≠ "" ∧ ∀ c ∈ text.toList, c.isDigit = true

theorem not_isNumeral_iff (text : String) :
    ¬IsNumeral text ↔ text = "" ∨ ∃ c ∈ text.toList, c.isDigit = false := by
  simp only [IsNumeral, not_and_or, not_not, not_forall, Bool.not_eq_true, exists_prop]

/-- A numeral is refused only where the width has no room for its number. -/
theorem decode_of_isNumeral (width : Nat) {text : String} (h : IsNumeral text) :
    decode width text =
      if 0 < width ∧ number text < 256 ^ width then .ok (FixedBytes.ofNat width (number text))
      else .error (.invalidFormat (.decimalTooWide width)) := by
  have hne : text.toList ≠ [] := mt String.toList_eq_nil_iff.mp h.1
  rcases Nat.eq_zero_or_pos width with rfl | hw
  · -- even the number zero takes a byte
    have hwide : 0 < byteWidth (number text) := Nat.lt_of_lt_of_le Nat.zero_lt_one (le_max_left ..)
    have hdigits : ¬(text.toList = [] ∨ ¬text.toList.all Char.isDigit) := by
      rw [List.all_eq_true.mpr h.2]
      simpa using hne
    rw [decode]
    rw [number] at hwide
    simp only [hdigits, if_false, hwide, if_true, lt_irrefl, false_and]
  · rw [decode_of_digits width text hw hne h.2]
    simp only [hw, true_and]

theorem decode_of_not_isNumeral (width : Nat) {text : String} (h : ¬IsNumeral text) :
    decode width text = .error (.invalidFormat .decimalSyntax) := by
  rw [decode]
  apply if_pos
  by_contra hdigits
  rw [not_or, not_not, List.all_eq_true] at hdigits
  exact h ⟨mt String.toList_eq_nil_iff.mpr hdigits.1, hdigits.2⟩

theorem decode_eq_ok_iff_number (width : Nat) (text : String) (bytes : FixedBytes width) :
    decode width text = .ok bytes ↔ 0 < width ∧ IsNumeral text ∧ number text = bytes.toNat := by
  by_cases hnumeral : IsNumeral text
  · rw [decode_of_isNumeral width hnumeral]
    constructor
    · intro h
      split_ifs at h with hfits
      cases h
      exact ⟨hfits.1, hnumeral, (FixedBytes.toNat_ofNat hfits.2).symm⟩
    · rintro ⟨hw, -, hnumber⟩
      rw [hnumber, if_pos ⟨hw, bytes.toNat_lt⟩, FixedBytes.ofNat_toNat]
  · rw [decode_of_not_isNumeral width hnumeral]
    constructor
    · intro h
      cases h
    · rintro ⟨-, h, -⟩
      exact absurd h hnumeral

theorem digit_digitValue {c : Char} (h : c.isDigit = true) : digit (digitValue c) = c := by
  have hlow : 48 ≤ c.toNat := (Char.isDigit_iff_toNat.mp h).1
  rw [digit, digitValue, Nat.add_sub_cancel' hlow, Char.ofNat_toNat]

/-- A list of digits is the numeral of its number behind zeros. -/
theorem exists_zeros_numeral (ds : List Nat) (hne : ds ≠ []) (hlt : ∀ d ∈ ds, d < 10) :
    ∃ zeros, ds = List.replicate zeros 0 ++ numeral (Radix.value 10 ds) := by
  have hsplit := Radix.replicate_append_digits_value 10 (by decide) ds hlt
  rw [numeral]
  split_ifs with hvalue
  · -- the last of the zeros is the numeral
    rw [hvalue] at hsplit
    cases hzeros : (ds.takeWhile (· = 0)).length with
    | zero =>
      rw [hzeros] at hsplit
      exact absurd hsplit.symm hne
    | succ zeros =>
      rw [hzeros, List.replicate_succ'] at hsplit
      exact ⟨zeros, hsplit.symm.trans (List.append_nil _)⟩
  · exact ⟨_, hsplit.symm⟩

theorem numeral_of_lt {n : Nat} (h : n < 10) : numeral n = [n] := by
  rw [numeral]
  split_ifs with hzero
  · rw [hzero]
  · rw [Radix.digits_pos 10 n (by decide) (Nat.pos_of_ne_zero hzero), Nat.div_eq_of_lt h,
      Radix.digits_zero, Nat.mod_eq_of_lt h, List.nil_append]

theorem numeral_of_ge {n : Nat} (h : 10 ≤ n) : numeral n = numeral (n / 10) ++ [n % 10] := by
  have hdiv : n / 10 ≠ 0 := by omega
  rw [numeral, if_neg (by omega), numeral, if_neg hdiv]
  exact Radix.digits_pos 10 n (by decide) (by omega)

/-- What is written is the numeral as which a natural number is shown. -/
theorem map_digit_numeral (n : Nat) : (numeral n).map digit = Nat.toDigits 10 n := by
  have hdigit : ∀ v < 10, digit v = Nat.digitChar v := by decide
  -- both take the last digit off and go on with the quotient
  induction n using Nat.strong_induction_on with
  | _ n ih =>
    rcases Nat.lt_or_ge n 10 with hn | hn
    · rw [numeral_of_lt hn, Nat.toDigits_of_lt_base hn, List.map_singleton, hdigit n hn]
    · rw [numeral_of_ge hn, Nat.toDigits_of_base_le (by decide) hn, List.map_append,
        List.map_singleton, ih (n / 10) (by omega), hdigit _ (Nat.mod_lt n (by decide))]

/-- What is written is the numeral of the number in base ten. -/
theorem encode_eq_repr (bytes : Bytes) : encode bytes = Nat.repr bytes.toNat := by
  rw [Nat.repr_eq_ofList_toDigits, ← map_digit_numeral, ← toList_encode, String.ofList_toList]

/-- Only the number zero is written with a zero in front. -/
theorem head?_encode_ne_zero (bytes : Bytes) (h : bytes.toNat ≠ 0) :
    (encode bytes).toList.head? ≠ some '0' := by
  have hne : Radix.digits 10 bytes.toNat ≠ [] := by
    have hnumeral := numeral_ne_nil bytes.toNat
    rwa [numeral, if_neg h] at hnumeral
  have hhead := Radix.head_digits_ne_zero 10 bytes.toNat (by decide) hne
  have hlt := Radix.digits_lt 10 bytes.toNat (by decide) _ (List.head_mem hne)
  rw [toList_encode, numeral, if_neg h, List.head?_map, List.head?_eq_some_head hne,
    Option.map_some, ne_eq, Option.some.injEq]
  intro hzero
  have hvalue := congrArg digitValue hzero
  rw [digitValue_digit _ hlt] at hvalue
  exact hhead hvalue

/-- The texts of digits that denote a number are its numeral behind zeros. -/
theorem isNumeral_and_number_iff (text : String) (n : Nat) :
    IsNumeral text ∧ number text = n ↔
      ∃ zeros, text.toList = List.replicate zeros '0' ++ (numeral n).map digit := by
  constructor
  · rintro ⟨⟨hne, hdigits⟩, rfl⟩
    have hlt : ∀ d ∈ text.toList.map digitValue, d < 10 := fun d hd => by
      obtain ⟨c, hc, rfl⟩ := List.mem_map.mp hd
      exact digitValue_lt (hdigits c hc)
    have hback : (text.toList.map digitValue).map digit = text.toList := by
      rw [List.map_map]
      refine (List.map_congr_left fun c hc => ?_).trans (List.map_id _)
      exact digit_digitValue (hdigits c hc)
    -- the split of the list of digits is written back as characters
    obtain ⟨zeros, hzeros⟩ := exists_zeros_numeral (text.toList.map digitValue)
      (mt List.map_eq_nil_iff.mp (mt String.toList_eq_nil_iff.mp hne)) hlt
    refine ⟨zeros, ?_⟩
    have hwritten := congrArg (List.map digit) hzeros
    rw [hback, List.map_append, List.map_replicate] at hwritten
    exact hwritten
  · rintro ⟨zeros, htext⟩
    refine ⟨⟨?_, ?_⟩, ?_⟩
    · rintro rfl
      exact numeral_ne_nil n (List.map_eq_nil_iff.mp (List.append_eq_nil_iff.mp htext.symm).2)
    · intro c hc
      rw [htext] at hc
      rcases List.mem_append.mp hc with hc | hc
      · rw [List.eq_of_mem_replicate hc]
        rfl
      · obtain ⟨d, hd, rfl⟩ := List.mem_map.mp hc
        exact isDigit_digit d (numeral_lt n d hd)
    · -- the zeros in front add nothing
      have hzero : digitValue '0' = 0 := rfl
      rw [number, htext, List.map_append, List.map_replicate, hzero, map_digitValue_numeral,
        Radix.value_append, Radix.value_replicate_zero, Nat.zero_mul, Nat.zero_add, value_numeral]

/-- Zeros in front of the numeral make no difference, however many there are. -/
theorem decode_eq_ok_iff (width : Nat) (text : String) (bytes : FixedBytes width) :
    decode width text = .ok bytes ↔ 0 < width ∧
      ∃ zeros, text.toList = List.replicate zeros '0' ++ (encode bytes.toBytes).toList := by
  rw [decode_eq_ok_iff_number, isNumeral_and_number_iff, toList_encode]
  rfl

/-- A text is refused for what is no digit before it is refused for its number. -/
theorem decode_eq_error_iff (width : Nat) (text : String) (error : Error) :
    decode width text = .error error ↔
      (¬IsNumeral text ∧ error = .invalidFormat .decimalSyntax) ∨
        (IsNumeral text ∧ (width = 0 ∨ 256 ^ width ≤ number text)) ∧
          error = .invalidFormat (.decimalTooWide width) := by
  by_cases hnumeral : IsNumeral text
  · have hfits : width = 0 ∨ 256 ^ width ≤ number text ↔
        ¬(0 < width ∧ number text < 256 ^ width) := by
      rw [not_and_or, Nat.not_lt, Nat.not_lt, Nat.le_zero]
    rw [decode_of_isNumeral width hnumeral, hfits]
    simp only [hnumeral, not_true, false_and, false_or, true_and]
    split_ifs with h
    · exact iff_of_false nofun fun hrefused => hrefused.1 h
    · rw [Except.error.injEq]
      exact ⟨fun herror => ⟨h, herror.symm⟩, fun hrefused => hrefused.2.symm⟩
  · rw [decode_of_not_isNumeral width hnumeral, Except.error.injEq]
    simp only [hnumeral, not_false_iff, true_and, false_and, or_false]
    exact eq_comm

/-- A text is read as some bytes exactly if it is the numeral of their number behind any number of
zeros, so the numeral that is written is read back and no number is cut. Refused are the empty
text, what is no digit, and a number for which the bytes do not suffice; zero takes one of
them. -/
theorem reads_zeros_and_numeral :
    (∀ width text (bytes : FixedBytes width), decode width text = .ok bytes ↔ 0 < width ∧
        ∃ zeros, text.toList = List.replicate zeros '0' ++ (encode bytes.toBytes).toList) ∧
      (∀ bytes, encode bytes = Nat.repr bytes.toNat ∧
        (bytes.toNat ≠ 0 → (encode bytes).toList.head? ≠ some '0')) ∧
      (∀ width (bytes : FixedBytes (width + 1)),
        decode (width + 1) (encode bytes.toBytes) = .ok bytes) ∧
      (∀ width text bytes, decode width text = .ok bytes → bytes.toNat = number text) ∧
      (∀ width text, (∃ error, decode width text = .error error) ↔
        width = 0 ∨ text = "" ∨ (∃ c ∈ text.toList, c.isDigit = false) ∨
          256 ^ width ≤ number text) := by
  refine ⟨decode_eq_ok_iff, fun bytes => ⟨encode_eq_repr bytes, head?_encode_ne_zero bytes⟩,
    ?back, ?uncut, ?refused⟩
  case back =>
    intro width bytes
    exact (decode_eq_ok_iff ..).mpr ⟨Nat.succ_pos width, 0, rfl⟩
  case uncut =>
    intro width text bytes h
    exact ((decode_eq_ok_iff_number ..).mp h).2.2.symm
  case refused =>
    intro width text
    rw [← or_assoc (a := text = ""), ← not_isNumeral_iff]
    simp only [decode_eq_error_iff, exists_or, exists_and_left, exists_eq, and_true]
    tauto

/-- Seven zeros more than the numeral has, and a number that just takes two bytes. -/
example : decode 2 "000000065535" = .ok ⟨[0xff, 0xff], rfl⟩ := by decide

end BitcoinKeys.Decimal
