import BitcoinKeys.Base58
import BitcoinKeys.Proofs.Bytes
import BitcoinKeys.Proofs.Except
import BitcoinKeys.Proofs.Text
import Mathlib.Data.List.GetD
import Mathlib.Data.Set.Function

/-! Both directions of Base58 change the base of a digit list and keep its leading zeros. Hence reading
accepts exactly what writing produces, blanks around it apart. -/
namespace BitcoinKeys.Base58

theorem digitValue?_digit : ∀ v < 58, digitValue? (digit v) = some v := by decide

theorem digit_one : ∀ v < 58, (digit v = '1' ↔ v = 0) := by decide

theorem isBlank_digit : ∀ v < 58, Text.isBlank (digit v) = false := by decide

theorem digit_lt_128 : ∀ v < 58, (digit v).toNat < 128 := by decide

theorem digit_of_digitValue? {symbol : Char} {v : Nat} (h : digitValue? symbol = some v) :
    v < 58 ∧ digit v = symbol := by
  obtain ⟨hv, heq, _⟩ := List.idxOf?_eq_some_iff.mp h
  have hlt : v < 58 := hv
  refine ⟨hlt, ?_⟩
  rw [digit, ← heq]
  exact List.getD_eq_getElem _ _ hv

theorem isSymbol_iff (c : Char) : isSymbol c = true ↔ ∃ v < 58, digit v = c := by
  constructor
  · intro h
    have hs : (alphabet.idxOf? c).isSome := List.isSome_idxOf?.mpr (List.contains_iff_mem.mp h)
    obtain ⟨v, hv⟩ := Option.isSome_iff_exists.mp hs
    exact ⟨v, digit_of_digitValue? hv⟩
  · rintro ⟨v, hv, rfl⟩
    have hs : (digitValue? (digit v)).isSome := by rw [digitValue?_digit v hv, Option.isSome_some]
    exact List.contains_iff_mem.mpr (List.isSome_idxOf?.mp hs)

def symbols (ds : List Nat) : List Char := ds.map digit

theorem isBlank_symbols (ds : List Nat) (h : ∀ d ∈ ds, d < 58) :
    ∀ c ∈ symbols ds, Text.isBlank c = false := by
  intro c hc
  obtain ⟨d, hd, rfl⟩ := List.mem_map.mp hc
  exact isBlank_digit d (h d hd)

theorem exists_symbols (characters : List Char) (h : ∀ c ∈ characters, isSymbol c = true) :
    ∃ ds, (∀ d ∈ ds, d < 58) ∧ characters = symbols ds := by
  induction characters with
  | nil => exact ⟨[], by simp, rfl⟩
  | cons c cs ih =>
    obtain ⟨ds, hds, rfl⟩ := ih fun x hx => h x (List.mem_cons_of_mem c hx)
    obtain ⟨v, hv, rfl⟩ := (isSymbol_iff c).mp (h c List.mem_cons_self)
    exact ⟨v :: ds, List.forall_mem_cons.mpr ⟨hv, hds⟩, rfl⟩

/-- The leading '1's are the leading zeros. -/
theorem span_ones (ds : List Nat) (h : ∀ d ∈ ds, d < 58) :
    (symbols ds).takeWhile (· = '1') = symbols (ds.takeWhile (· = 0)) ∧
      (symbols ds).dropWhile (· = '1') = symbols (ds.dropWhile (· = 0)) := by
  induction ds with
  | nil => exact ⟨rfl, rfl⟩
  | cons d ds ih =>
    obtain ⟨htake, hdrop⟩ := ih fun x hx => h x (List.mem_cons_of_mem d hx)
    have hone := digit_one d (h d List.mem_cons_self)
    rw [symbols] at htake hdrop ⊢
    by_cases hz : d = 0
    · simp only [List.map_cons, List.takeWhile_cons, List.dropWhile_cons, decide_eq_true hz,
        decide_eq_true (hone.mpr hz), if_true, htake, hdrop, and_true]
      rfl
    · simp only [List.map_cons, List.takeWhile_cons, List.dropWhile_cons, decide_eq_false hz,
        decide_eq_false (mt hone.mp hz), Bool.false_eq_true, if_false]
      exact ⟨rfl, rfl⟩

/-- Pushing bytes behind the register of a number gives the register of the longer number, so no
zero ever stands on top. -/
theorem foldl_pushByte (bytes : Bytes) (n : Nat) :
    bytes.foldl pushByte (Radix.leastFirst 58 n) =
      Radix.leastFirst 58 (n * 256 ^ bytes.length + bytes.toNat) := by
  -- the register always holds the number of the bytes read so far
  induction bytes generalizing n with
  | nil => rw [List.foldl_nil, List.length_nil, pow_zero, Nat.mul_one]; rfl
  | cons byte bytes ih =>
    rw [List.foldl_cons, pushByte, Radix.mulAddGrow_leastFirst 58 256 n _ (by decide) (by decide),
      ih, Bytes.toNat_cons, List.length_cons]
    congr 1
    ring

theorem map_takeWhile_zero (bytes : Bytes) :
    (bytes.takeWhile (· = 0)).map (fun _ => '1') =
      symbols ((bytes.map UInt8.toNat).takeWhile (· = 0)) := by
  induction bytes with
  | nil => rfl
  | cons byte bytes ih =>
    rw [List.map_cons]
    by_cases hz : byte = 0
    · subst hz
      rw [List.takeWhile_cons_of_pos (by decide), List.takeWhile_cons_of_pos (by decide),
        List.map_cons, ih]
      rfl
    · have hn : byte.toNat ≠ 0 := fun h => hz (UInt8.toNat_inj.mp h)
      rw [List.takeWhile_cons_of_neg (by simpa using hz),
        List.takeWhile_cons_of_neg (by simpa using hn)]
      rfl

theorem toNat_dropWhile_zero (bytes : Bytes) :
    Bytes.toNat (bytes.dropWhile (· = 0)) = bytes.toNat := by
  induction bytes with
  | nil => rfl
  | cons byte bytes ih =>
    by_cases hz : byte = 0
    · subst hz
      rw [List.dropWhile_cons_of_pos (by decide), ih, Bytes.toNat_cons]
      simp
    · rw [List.dropWhile_cons_of_neg (by simpa using hz)]

/-- Writing is a change of base that keeps the leading zeros. -/
theorem encodeBytes_eq (bytes : Bytes) :
    encodeBytes bytes = String.ofList (symbols (Radix.rebase 256 58 (bytes.map UInt8.toNat))) := by
  have hfold := foldl_pushByte (bytes.dropWhile (· = 0)) 0
  rw [Radix.leastFirst_zero, Nat.zero_mul, Nat.zero_add, toNat_dropWhile_zero] at hfold
  rw [encodeBytes, hfold, map_takeWhile_zero, symbols, symbols, Radix.rebase, List.map_append]
  rfl

theorem encodeBytes_lt (bytes : Bytes) :
    ∀ d ∈ Radix.rebase 256 58 (bytes.map UInt8.toNat), d < 58 :=
  Radix.rebase_lt 256 58 (by decide) _

/-- A byte string of the width that the ratio gives has room for any number of so many digits. -/
theorem capacity (length : Nat) : 58 ^ length ≤ 256 ^ registerWidth length := by
  -- 52/71 lies between the ratio of the logarithms and the ratio that is used
  have hbase : 58 ^ 71 ≤ 256 ^ 52 := by norm_num
  have hwidth : 52 * length ≤ registerWidth length * 71 := by
    rw [registerWidth]
    omega
  have hpow : (58 ^ length) ^ 71 ≤ (256 ^ registerWidth length) ^ 71 := by
    calc (58 ^ length) ^ 71 = (58 ^ 71) ^ length := by rw [← pow_mul, ← pow_mul, Nat.mul_comm]
      _ ≤ (256 ^ 52) ^ length := Nat.pow_le_pow_left hbase length
      _ = 256 ^ (52 * length) := (pow_mul ..).symm
      _ ≤ 256 ^ (registerWidth length * 71) := Nat.pow_le_pow_right (by decide) hwidth
      _ = (256 ^ registerWidth length) ^ 71 := pow_mul ..
  exact (Nat.pow_le_pow_iff_left (by decide)).mp hpow

/-- Digits that are no more than the width is made for denote a number that the register holds. -/
theorem value_lt_capacity {length : Nat} {ds : List Nat} (hds : ∀ d ∈ ds, d < 58)
    (h : ds.length ≤ length) : Radix.value 58 ds < 256 ^ registerWidth length := by
  calc Radix.value 58 ds < 58 ^ ds.length := Radix.value_lt 58 (by decide) ds hds
    _ ≤ 58 ^ length := Nat.pow_le_pow_right (by decide) h
    _ ≤ 256 ^ registerWidth length := capacity length

/-- A register of fixed width holds the number of the symbols modulo its capacity. -/
theorem foldlM_pushSymbol (width n : Nat) (ds : List Nat) (h : ∀ d ∈ ds, d < 58) :
    (symbols ds).foldlM pushSymbol (Radix.fixed 256 width n).reverse =
      .ok (Radix.fixed 256 width (n * 58 ^ ds.length + Radix.value 58 ds)).reverse := by
  -- the register always holds the low bytes of the number of the symbols read so far
  induction ds generalizing n with
  | nil => rw [List.length_nil, pow_zero, Nat.mul_one]; rfl
  | cons d ds ih =>
    obtain ⟨hd, hds⟩ := List.forall_mem_cons.mp h
    have hpush : pushSymbol (Radix.fixed 256 width n).reverse (digit d) =
        .ok (Radix.fixed 256 width (n * 58 + d)).reverse := by
      rw [pushSymbol, digitValue?_digit d hd]
      exact congrArg Except.ok (Radix.mulAdd_fixed 256 58 width n d (by decide))
    have hnum : (n * 58 + d) * 58 ^ ds.length + Radix.value 58 ds =
        n * 58 ^ (d :: ds).length + Radix.value 58 (d :: ds) := by
      rw [List.length_cons, Radix.value_cons]
      ring
    rw [symbols, List.map_cons, List.foldlM_cons, hpush, ← hnum]
    exact ih (n * 58 + d) hds

theorem isSymbol_of_foldlM {register register' : List Nat} {characters : List Char}
    (h : characters.foldlM pushSymbol register = .ok register') :
    ∀ c ∈ characters, isSymbol c = true := by
  induction characters generalizing register with
  | nil => simp
  | cons c cs ih =>
    rw [List.foldlM_cons] at h
    cases hv : digitValue? c with
    | none =>
      rw [pushSymbol, hv] at h
      cases h
    | some v =>
      rw [pushSymbol, hv] at h
      exact List.forall_mem_cons.mpr ⟨(isSymbol_iff c).mpr ⟨v, digit_of_digitValue? hv⟩, ih h⟩

/-- The zeros on top of a register that is wide enough are no digits of its number. -/
theorem registerBytes_fixed (width n : Nat) (h : n < 256 ^ width) :
    registerBytes (Radix.fixed 256 width n).reverse = (Radix.digits 256 n).map UInt8.ofNat := by
  rw [registerBytes, List.reverse_reverse, Radix.dropWhile_fixed 256 width n (by decide) h]

/-- One word of symbols is read as the digits of the same number in base 256. -/
theorem decode_of_symbols (text : String) (ds : List Nat) (h : ∀ d ∈ ds, d < 58)
    (ht : Text.trimBlank text = String.ofList (symbols ds)) :
    decode text = .ok ((Radix.rebase 58 256 ds).map UInt8.ofNat) := by
  obtain ⟨hword, hrest⟩ := (Text.trimBlank_eq_iff text _ (isBlank_symbols ds h)).mp ht
  obtain ⟨hones, hdigits⟩ := span_ones ds h
  have hlow : ∀ d ∈ ds.dropWhile (· = 0), d < 58 := fun d hd =>
    h d ((List.dropWhile_suffix _).subset hd)
  -- the register is wide enough, since no character takes less than one byte
  have hroom (rest : List Char) : Radix.value 58 (ds.dropWhile (· = 0)) <
      256 ^ registerWidth (Text.byteCount (symbols (ds.dropWhile (· = 0)) ++ rest)) := by
    have hlen := Text.length_le_byteCount (symbols (ds.dropWhile (· = 0)) ++ rest)
    rw [List.length_append, symbols, List.length_map] at hlen
    exact value_lt_capacity hlow ((Nat.le_add_right ..).trans hlen)
  have hzeros : (symbols (ds.takeWhile (· = 0))).map (fun _ => (0 : UInt8)) =
      (ds.takeWhile (· = 0)).map UInt8.ofNat := by
    rw [symbols, List.map_map]
    refine List.map_congr_left fun d hd => ?_
    have hz : d = 0 := by simpa using List.mem_takeWhile_imp hd
    rw [hz]
    rfl
  have hfold (width : Nat) := foldlM_pushSymbol width 0 (ds.dropWhile (· = 0)) hlow
  simp only [Radix.fixed_zero, List.reverse_replicate, Nat.zero_mul, Nat.zero_add] at hfold
  rw [decode]
  simp only [hword, hones, hdigits, hfold, hrest, ne_eq, not_true_eq_false, if_false]
  change Except.ok _ = _
  rw [registerBytes_fixed _ _ (hroom _), hzeros, Radix.value_dropWhile_zero, Radix.rebase,
    List.map_append]

/-- Only symbols between blanks are read. -/
theorem symbols_of_decode {text : String} {bytes : Bytes} (h : decode text = .ok bytes) :
    ∃ ds, (∀ d ∈ ds, d < 58) ∧ Text.trimBlank text = String.ofList (symbols ds) := by
  rw [decode, bind_eq_ok_iff] at h
  obtain ⟨register, hfold, hok⟩ := h
  have hrest : ((text.toList.dropWhile Text.isBlank).dropWhile (!Text.isBlank ·)).dropWhile
      Text.isBlank = [] := by
    by_contra hne
    rw [if_pos hne] at hok
    cases hok
  have hword : ∀ c ∈ (text.toList.dropWhile Text.isBlank).takeWhile (!Text.isBlank ·),
      isSymbol c = true := by
    intro c hc
    -- the leading '1's are not read into the register, but they are symbols as well
    rw [← List.takeWhile_append_dropWhile (p := (· = '1'))
      (l := (text.toList.dropWhile Text.isBlank).takeWhile (!Text.isBlank ·))] at hc
    rcases List.mem_append.mp hc with hone | hsymbol
    · have : c = '1' := by simpa using List.mem_takeWhile_imp hone
      rw [this]
      decide
    · exact isSymbol_of_foldlM hfold c hsymbol
  obtain ⟨ds, hds, heq⟩ := exists_symbols _ hword
  exact ⟨ds, hds, (Text.trimBlank_eq_iff text _ (isBlank_symbols ds hds)).mpr ⟨heq, hrest⟩⟩

/-- Reading accepts what writing produces, blanks around it apart, and nothing else. -/
theorem decode_eq_ok_iff (text : String) (bytes : Bytes) :
    decode text = .ok bytes ↔ Text.trimBlank text = encodeBytes bytes := by
  constructor
  · intro h
    obtain ⟨ds, hds, ht⟩ := symbols_of_decode h
    rw [decode_of_symbols text ds hds ht] at h
    rw [← Except.ok.inj h, encodeBytes_eq,
      Bytes.map_toNat_map_ofNat _ (Radix.rebase_lt 58 256 (by decide) ds),
      Radix.rebase_rebase 58 256 (by decide) (by decide) ds hds, ht]
  · intro h
    rw [encodeBytes_eq] at h
    rw [decode_of_symbols text _ (encodeBytes_lt bytes) h,
      Radix.rebase_rebase 256 58 (by decide) (by decide) _ (Bytes.map_toNat_lt bytes),
      Bytes.map_ofNat_map_toNat]

theorem toList_encodeBytes_zero (rest : Bytes) :
    (encodeBytes (0 :: rest)).toList = '1' :: (encodeBytes rest).toList := by
  rw [encodeBytes, encodeBytes, String.toList_ofList, String.toList_ofList]
  rfl

/-- A first byte that is not zero leaves no leading '1's. -/
theorem toList_encodeBytes_of_ne_zero {first : UInt8} (hf : first ≠ 0) (rest : Bytes) :
    (encodeBytes (first :: rest)).toList =
      symbols (Radix.digits 58 (Bytes.toNat (first :: rest))) := by
  have hfirst : first.toNat ≠ 0 := fun h => hf (UInt8.toNat_inj.mp h)
  have hzeros : ((first :: rest).map UInt8.toNat).takeWhile (· = 0) = [] :=
    List.takeWhile_cons_of_neg (by simpa using hfirst)
  rw [encodeBytes_eq, String.toList_ofList, Radix.rebase, hzeros, List.nil_append, Bytes.toNat]

/-- Bounds on the number that follow from the first byte fix the width and bound the first
symbol. -/
theorem exists_first_symbol (first : UInt8) (rest : Bytes) (place low high : Nat) (hpos : 0 < low)
    (hbase : high ≤ 58) (hlow : low * 58 ^ place ≤ first.toNat * 256 ^ rest.length)
    (hhigh : (first.toNat + 1) * 256 ^ rest.length ≤ high * 58 ^ place) :
    ∃ v below, low ≤ v ∧ v < high ∧ below.length = place ∧
      (encodeBytes (first :: rest)).toList = digit v :: below := by
  have hplace : 0 < 58 ^ place := Nat.pow_pos (by decide)
  have hf : first ≠ 0 := by
    intro hzero
    have hnumber : 0 < low * 58 ^ place := Nat.mul_pos hpos hplace
    rw [hzero, UInt8.toNat_zero, Nat.zero_mul] at hlow
    omega
  obtain ⟨habove, hbelow⟩ := Bytes.toNat_cons_bounds first rest
  set n := Bytes.toNat (first :: rest)
  have hleast : 58 ^ place ≤ n := (Nat.le_mul_of_pos_left _ hpos).trans (hlow.trans habove)
  have hmost : n < 58 ^ (place + 1) := by
    calc n < high * 58 ^ place := hbelow.trans_le hhigh
      _ ≤ 58 * 58 ^ place := Nat.mul_le_mul_right _ hbase
      _ = 58 ^ (place + 1) := (pow_succ' ..).symm
  refine ⟨n / 58 ^ place, symbols (Radix.fixed 58 place n), ?_, ?_, ?_, ?_⟩
  · exact (Nat.le_div_iff_mul_le hplace).mpr (hlow.trans habove)
  · exact (Nat.div_lt_iff_lt_mul hplace).mpr (hbelow.trans_le hhigh)
  · rw [symbols, List.length_map, Radix.length_fixed]
  · rw [toList_encodeBytes_of_ne_zero hf, Radix.digits_of_bounds 58 place n (by decide) hleast hmost,
      symbols, List.map_cons, symbols]

/-- The number of symbols behind bounds on the number of the bytes by powers of 58. -/
theorem length_encodeBytes (first : UInt8) (rest : Bytes) (width : Nat)
    (hlow : 58 ^ width ≤ first.toNat * 256 ^ rest.length)
    (hhigh : (first.toNat + 1) * 256 ^ rest.length ≤ 58 ^ (width + 1)) :
    (encodeBytes (first :: rest)).toList.length = width + 1 := by
  rw [pow_succ'] at hhigh
  rw [← Nat.one_mul (58 ^ width)] at hlow
  obtain ⟨v, below, -, -, hbelow, hwritten⟩ :=
    exists_first_symbol first rest width 1 58 (by decide) (by decide) hlow hhigh
  rw [hwritten, List.length_cons, hbelow]

/-- A leading zero takes one symbol and stands for a factor of 256, so it leaves more room than it
takes. -/
theorem length_encodeBytes_le (bytes : Bytes) (width : Nat)
    (hroom : 256 ^ bytes.length ≤ 58 ^ width) : (encodeBytes bytes).toList.length ≤ width := by
  have hsplit := List.takeWhile_append_dropWhile (p := (· = 0)) (l := bytes.map UInt8.toNat)
  set zeros := (bytes.map UInt8.toNat).takeWhile (· = 0) with hz
  set rest := (bytes.map UInt8.toNat).dropWhile (· = 0) with hr
  have hlength : zeros.length + rest.length = bytes.length := by
    rw [← List.length_append, hsplit, List.length_map]
  have hvalue : Radix.value 256 (bytes.map UInt8.toNat) < 256 ^ rest.length := by
    rw [← Radix.value_dropWhile_zero, ← hr]
    exact Radix.value_lt 256 (by decide) rest fun d hd =>
      Bytes.map_toNat_lt bytes d ((List.dropWhile_suffix _).subset hd)
  -- each leading zero gives up a factor of 256 for one of 58
  have hones : 58 ^ zeros.length * 256 ^ rest.length ≤ 58 ^ width := by
    calc 58 ^ zeros.length * 256 ^ rest.length ≤ 256 ^ zeros.length * 256 ^ rest.length :=
          Nat.mul_le_mul_right _ (Nat.pow_le_pow_left (by decide) _)
      _ = 256 ^ bytes.length := by rw [← pow_add, hlength]
      _ ≤ 58 ^ width := hroom
  have hfit : zeros.length ≤ width := by
    have hpos : 0 < 256 ^ rest.length := Nat.pow_pos (by decide)
    exact (Nat.pow_le_pow_iff_right (by decide)).mp ((Nat.le_mul_of_pos_right _ hpos).trans hones)
  obtain ⟨room, rfl⟩ := Nat.exists_eq_add_of_le hfit
  have hrest : 256 ^ rest.length ≤ 58 ^ room := by
    rw [pow_add] at hones
    exact Nat.le_of_mul_le_mul_left hones (Nat.pow_pos (by decide))
  have hdigits := (Radix.length_digits_le_iff 58 room _ (by decide)).mpr (hvalue.trans_le hrest)
  rw [encodeBytes_eq, String.toList_ofList, symbols, List.length_map, Radix.rebase,
    List.length_append, ← hz]
  exact Nat.add_le_add_left hdigits _

theorem isDigit_digit : ∀ v < 58, 9 ≤ v → (digit v).isDigit = false := by decide

/-- Where bounds on the number leave only letters for one of its digits, the text has a letter. -/
theorem exists_letter (first : UInt8) (rest : Bytes) (place low high : Nat) (hf : first ≠ 0)
    (hlow : low * 58 ^ place ≤ first.toNat * 256 ^ rest.length)
    (hhigh : (first.toNat + 1) * 256 ^ rest.length ≤ high * 58 ^ place)
    (hletter : ∀ q, low ≤ q → q < high → 9 ≤ q % 58) :
    ∃ c ∈ (encodeBytes (first :: rest)).toList, c.isDigit = false := by
  obtain ⟨habove, hbelow⟩ := Bytes.toNat_cons_bounds first rest
  have hplace : 0 < 58 ^ place := Nat.pow_pos (by decide)
  set n := Bytes.toNat (first :: rest) with hn
  have hq : 9 ≤ n / 58 ^ place % 58 := by
    apply hletter
    · exact (Nat.le_div_iff_mul_le hplace).mpr (hlow.trans habove)
    · exact (Nat.div_lt_iff_lt_mul hplace).mpr (hbelow.trans_le hhigh)
  -- the digit at that place is not zero, so it is one of those that are written
  have hmem : n / 58 ^ place % 58 ∈ Radix.digits 58 n := by
    have hget := Nat.getD_digits n place (b := 58) (by decide)
    rw [Radix.digits, List.mem_reverse, Radix.leastFirst_eq_digits 58 n (by decide), ← hget]
    rw [← hget] at hq
    rw [List.getD_eq_getElem?_getD] at hq ⊢
    cases hd : (Nat.digits 58 n)[place]? with
    | none =>
      rw [hd, Option.getD_none] at hq
      omega
    | some d => exact List.mem_of_getElem? hd
  refine ⟨digit (n / 58 ^ place % 58), ?_, isDigit_digit _ (Nat.mod_lt _ (by decide)) hq⟩
  rw [toList_encodeBytes_of_ne_zero hf, symbols]
  exact List.mem_map_of_mem hmem

theorem isSymbol_encodeBytes (bytes : Bytes) : ∀ c ∈ (encodeBytes bytes).toList, isSymbol c = true := by
  intro c hc
  rw [encodeBytes_eq, String.toList_ofList] at hc
  obtain ⟨d, hd, rfl⟩ := List.mem_map.mp hc
  exact (isSymbol_iff _).mpr ⟨d, encodeBytes_lt bytes d hd, rfl⟩

theorem isBlank_of_isSymbol {c : Char} (h : isSymbol c = true) : Text.isBlank c = false := by
  obtain ⟨d, hd, rfl⟩ := (isSymbol_iff c).mp h
  exact isBlank_digit d hd

theorem lt_128_of_isSymbol {c : Char} (h : isSymbol c = true) : c.toNat < 128 := by
  obtain ⟨d, hd, rfl⟩ := (isSymbol_iff c).mp h
  exact digit_lt_128 d hd

theorem trimBlank_encodeBytes (bytes : Bytes) :
    Text.trimBlank (encodeBytes bytes) = encodeBytes bytes :=
  Text.trimBlank_of_none _ fun c hc => isBlank_of_isSymbol (isSymbol_encodeBytes bytes c hc)

theorem decode_encodeBytes (bytes : Bytes) : decode (encodeBytes bytes) = .ok bytes :=
  (decode_eq_ok_iff _ _).mpr (trimBlank_encodeBytes bytes)

/-- Each byte string has a text of its own. -/
theorem encodeBytes_injective : Function.Injective encodeBytes := by
  intro x y h
  have hx := decode_encodeBytes x
  rw [h, decode_encodeBytes y] at hx
  exact (Except.ok.inj hx).symm

/-- Every text of symbols is written for exactly one byte string. -/
theorem exists_encodeBytes (text : String) (h : ∀ c ∈ text.toList, isSymbol c = true) :
    ∃ bytes, encodeBytes bytes = text := by
  obtain ⟨ds, hds, heq⟩ := exists_symbols text.toList h
  have ht : Text.trimBlank text = text :=
    Text.trimBlank_of_none text fun c hc => isBlank_of_isSymbol (h c hc)
  have hs : Text.trimBlank text = String.ofList (symbols ds) := by
    rw [ht, ← heq, String.ofList_toList]
  exact ⟨_, ((decode_eq_ok_iff text _).mp (decode_of_symbols text ds hds hs)).symm.trans ht⟩

/-- Base58 is a bijection: trimmed texts that are read and byte strings determine each other,
whatever the length and the number of leading zeros, and the texts written are all texts of
symbols. -/
theorem symbol_texts_biject_with_bytes :
    (∀ text bytes, decode text = .ok bytes ↔ Text.trimBlank text = encode none bytes) ∧
      (∀ bytes, decode (encode none bytes) = .ok bytes) ∧
      Set.BijOn (encode none) Set.univ {text | ∀ c ∈ text.toList, isSymbol c = true} := by
  refine ⟨decode_eq_ok_iff, decode_encodeBytes, ?_, ?_, ?_⟩
  · intro bytes _
    exact isSymbol_encodeBytes bytes
  · exact encodeBytes_injective.injOn
  · intro text h
    obtain ⟨bytes, hbytes⟩ := exists_encodeBytes text h
    exact ⟨bytes, Set.mem_univ bytes, hbytes⟩

end BitcoinKeys.Base58
