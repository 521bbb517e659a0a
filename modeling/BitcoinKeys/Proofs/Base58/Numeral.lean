import BitcoinKeys.Proofs.Base58

/-! What is written for a byte string: a '1' for each leading zero byte, and behind them the numeral of
the big-endian number in base 58. The register that the writer works on never overflows. -/
namespace BitcoinKeys.Base58

theorem foldl_pushByte_nil (read : Bytes) :
    read.foldl pushByte [] = Nat.digits 58 read.toNat := by
  have hfold := foldl_pushByte read 0
  rwa [Radix.leastFirst_zero, Nat.zero_mul, Nat.zero_add,
    Radix.leastFirst_eq_digits 58 _ (by decide)] at hfold

theorem getLast?_digits_ne_zero (n : Nat) : (Nat.digits 58 n).getLast? ≠ some 0 := by
  rcases eq_or_ne n 0 with rfl | hn
  · simp
  · rw [List.getLast?_eq_some_getLast (Nat.digits_ne_nil_iff_ne_zero.mpr hn), ne_eq,
      Option.some.injEq]
    exact Nat.getLast_digit_ne_zero 58 hn

/-- What holds of the register behind the bytes read so far, and of the pass that takes in one byte
more. -/
structure RegisterSound (read : Bytes) (byte : UInt8) : Prop where
  number : Nat.ofDigits 58 (read.foldl pushByte []) = read.toNat
  digit_lt : ∀ d ∈ read.foldl pushByte [], d < 58
  top_ne_zero : (read.foldl pushByte []).getLast? ≠ some 0
  total_le : ∀ total ∈ Radix.totals 58 256 (read.foldl pushByte []) byte.toNat, total ≤ 14847
  carry_lt : Radix.carryOut 58 256 (read.foldl pushByte []) byte.toNat < 256

/-- The invariant of the encoder, for every number of bytes read. -/
theorem registerSound (read : Bytes) (byte : UInt8) : RegisterSound read byte := by
  have hdigits : ∀ d ∈ read.foldl pushByte [], d < 58 := by
    intro d hd
    rw [foldl_pushByte_nil] at hd
    exact Nat.digits_lt_base (by decide) hd
  obtain ⟨htotals, hcarry⟩ := Radix.totals_lt hdigits byte.toNat_lt
  constructor
  case number => rw [foldl_pushByte_nil, Nat.ofDigits_digits]
  case digit_lt => exact hdigits
  case top_ne_zero =>
    rw [foldl_pushByte_nil]
    exact getLast?_digits_ne_zero read.toNat
  case total_le => exact fun total htotal => Nat.le_of_lt_succ (htotals total htotal)
  case carry_lt => exact hcarry

theorem mapM_digitValue?_symbols (ds : List Nat) (h : ∀ d ∈ ds, d < 58) :
    (symbols ds).mapM digitValue? = some ds := by
  induction ds with
  | nil => rfl
  | cons d ds ih =>
    obtain ⟨hd, hds⟩ := List.forall_mem_cons.mp h
    have hrest := ih hds
    rw [symbols] at hrest
    rw [symbols, List.map_cons, List.mapM_cons, digitValue?_digit d hd, hrest]
    rfl

/-- A '1' for each leading zero byte, and behind them the numeral in base 58. -/
theorem toList_encodeBytes (bytes : Bytes) :
    (encodeBytes bytes).toList =
      List.replicate (bytes.takeWhile (· = 0)).length '1' ++
        (Nat.digits 58 bytes.toNat).reverse.map digit := by
  rw [encodeBytes_eq, String.toList_ofList, Radix.rebase, symbols, List.map_append, ← symbols,
    ← map_takeWhile_zero, List.map_const', Radix.digits, Radix.leastFirst_eq_digits 58 _ (by decide)]
  rfl

/-- The value of a text that is written, as a number in base 58. -/
theorem exists_value_encodeBytes (bytes : Bytes) :
    ∃ ds, (encodeBytes bytes).toList.mapM digitValue? = some ds ∧
      Radix.value 58 ds = bytes.toNat := by
  refine ⟨_, ?_, Radix.value_rebase 256 58 (by decide) (bytes.map UInt8.toNat)⟩
  rw [encodeBytes_eq, String.toList_ofList]
  exact mapM_digitValue?_symbols _ (encodeBytes_lt bytes)

/-- A byte string is written as its leading zeros and the numeral of its number, which starts with
no zero. The version byte counts as the first byte. While the numeral grows, every digit stays
below the base and every product fits in fourteen bits. -/
theorem writes_zeros_and_numeral :
    (∀ bytes, (encode none bytes).toList =
        List.replicate (bytes.takeWhile (· = 0)).length '1' ++
          (Nat.digits 58 bytes.toNat).reverse.map digit) ∧
      (∀ bytes : Bytes, (Nat.digits 58 bytes.toNat).reverse.head? ≠ some 0) ∧
      (∀ version payload, encode (some version) payload = encode none (version.toByte :: payload)) ∧
      (∀ bytes, ∃ ds, (encode none bytes).toList.mapM digitValue? = some ds ∧
        Radix.value 58 ds = bytes.toNat) ∧
      ∀ read byte, RegisterSound read byte := by
  refine ⟨toList_encodeBytes, fun bytes => ?_, fun _ _ => rfl, exists_value_encodeBytes,
    registerSound⟩
  rw [List.head?_reverse]
  exact getLast?_digits_ne_zero bytes.toNat

/-- Zeros alone have no numeral. -/
example : encode (some .address) [0, 0] = "111" := by decide

end BitcoinKeys.Base58
