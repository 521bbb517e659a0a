import BitcoinKeys.Proofs.Base58.Numeral
import BitcoinKeys.Proofs.Text.Utf8

/-! The register of the reader. Its width is fixed by the bytes that are left of the text before any symbol is
read, and that is enough: it holds the number of all symbols read so far, and no pass carries anything out. -/
namespace BitcoinKeys.Base58

open Text (byteCount isBlank isBlankByte utf8)

/-- The characters that go through the register: those behind the leading '1's, up to the next
blank. -/
def significant (text : String) : List Char :=
  ((text.toList.dropWhile isBlank).takeWhile (!isBlank ·)).dropWhile (· = '1')

def remaining (text : String) : Nat :=
  (((utf8 text).dropWhile isBlankByte).dropWhile (Char.ofUInt8 · = '1')).length

def registerAfter (text : String) (count : Nat) : Except Fault (List Nat) :=
  ((significant text).take count).foldlM pushSymbol
    (List.replicate (registerWidth (remaining text)) 0)

theorem isBytewise_one : Text.IsBytewise (· = '1') (Char.ofUInt8 · = '1') := by
  apply Text.isBytewise_of_ascii
  intro c h
  rw [of_decide_eq_true h]
  decide

/-- No blank is a '1', so the '1's end with the word that they start. -/
theorem dropWhile_ones (characters : List Char) :
    characters.dropWhile (· = '1') =
      (characters.takeWhile (!isBlank ·)).dropWhile (· = '1') ++
        characters.dropWhile (!isBlank ·) := by
  induction characters with
  | nil => rfl
  | cons c characters ih =>
    by_cases hone : c = '1'
    · subst hone
      exact ih
    · have hstays : decide (c = '1') = false := decide_eq_false hone
      cases hblank : isBlank c with
      | true =>
        simp only [List.takeWhile_cons, List.dropWhile_cons, hstays, hblank, Bool.not_true,
          Bool.false_eq_true, if_false, List.dropWhile_nil, List.nil_append]
      | false =>
        simp only [List.takeWhile_cons, List.dropWhile_cons, hstays, hblank, Bool.not_false,
          Bool.false_eq_true, if_false, if_true, List.cons_append, List.takeWhile_append_dropWhile]

theorem remaining_eq (text : String) :
    remaining text = byteCount (significant text ++
      (text.toList.dropWhile isBlank).dropWhile (!isBlank ·)) := by
  -- the width goes by bytes and the symbols by characters, but both spans end at the same place
  have htrimmed := (Text.isBytewise_isBlank.span text.toList).2
  have hones := (isBytewise_one.span (text.toList.dropWhile isBlank)).2
  rw [← htrimmed, dropWhile_ones] at hones
  rw [significant, ← Text.length_encoding, ← hones]
  rfl

/-- The register is made for bytes, and no symbol takes less than one. -/
theorem length_significant_le (text : String) : (significant text).length ≤ remaining text := by
  rw [remaining_eq, Text.byteCount_append]
  exact (Text.length_le_byteCount _).trans (Nat.le_add_right ..)

theorem symbols_of_mapM {characters : List Char} {ds : List Nat}
    (h : characters.mapM digitValue? = some ds) : characters = symbols ds ∧ ∀ d ∈ ds, d < 58 := by
  induction characters generalizing ds with
  | nil =>
    cases h
    exact ⟨rfl, nofun⟩
  | cons c characters ih =>
    rw [List.mapM_cons] at h
    obtain ⟨d, hd, h⟩ := Option.bind_eq_some_iff.mp h
    obtain ⟨rest, hrest, h⟩ := Option.bind_eq_some_iff.mp h
    cases h
    obtain ⟨hlt, hdigit⟩ := digit_of_digitValue? hd
    obtain ⟨hsymbols, hall⟩ := ih hrest
    refine ⟨?_, List.forall_mem_cons.mpr ⟨hlt, hall⟩⟩
    rw [symbols, List.map_cons, hdigit, hsymbols]
    rfl

section

variable {text : String} {count : Nat}

/-- No symbol takes less than one byte, so the number of the symbols read so far fits in the
register. -/
theorem value_lt_of_mapM {ds : List Nat}
    (h : ((significant text).take count).mapM digitValue? = some ds) :
    Radix.value 58 ds < 256 ^ registerWidth (remaining text) := by
  obtain ⟨hsymbols, hds⟩ := symbols_of_mapM h
  have hlength : ds.length ≤ remaining text := by
    calc ds.length = ((significant text).take count).length := by
          rw [hsymbols, symbols, List.length_map]
      _ ≤ (significant text).length := List.length_take_le' ..
      _ ≤ remaining text := length_significant_le text
  exact value_lt_capacity hds hlength

theorem mapM_take_succ {ds : List Nat} {symbol : Char} {d : Nat}
    (h : ((significant text).take count).mapM digitValue? = some ds)
    (hsymbol : (significant text)[count]? = some symbol) (hd : digitValue? symbol = some d) :
    ((significant text).take (count + 1)).mapM digitValue? = some (ds ++ [d]) := by
  rw [List.take_add_one, hsymbol, Option.toList_some, List.mapM_append, h, List.mapM_cons, hd]
  rfl

/-- The register behind some digits is their number in bytes, least significant first. -/
theorem registerAfter_eq {ds : List Nat}
    (h : ((significant text).take count).mapM digitValue? = some ds) :
    registerAfter text count =
      .ok (Radix.fixed 256 (registerWidth (remaining text)) (Radix.value 58 ds)).reverse := by
  obtain ⟨hsymbols, hds⟩ := symbols_of_mapM h
  have hfold := foldlM_pushSymbol (registerWidth (remaining text)) 0 ds hds
  rw [Radix.fixed_zero, List.reverse_replicate, Nat.zero_mul, Nat.zero_add] at hfold
  rw [registerAfter, hsymbols, hfold]

theorem exists_digits {register : List Nat}
    (h : registerAfter text count = .ok register) :
    ∃ ds, ((significant text).take count).mapM digitValue? = some ds := by
  obtain ⟨ds, hds, hsymbols⟩ := exists_symbols _ (isSymbol_of_foldlM h)
  refine ⟨ds, ?_⟩
  rw [hsymbols]
  exact mapM_digitValue?_symbols ds hds

/-- What holds of the register behind symbols with these digits: its width never changes, and no
high byte of their number is missing. -/
structure RegisterHolds (width : Nat) (ds register : List Nat) : Prop where
  length_eq : register.length = width
  byte_lt : ∀ byte ∈ register, byte < 256
  number : Radix.value 256 register.reverse = Radix.value 58 ds

/-- The register is as wide as it was made and holds the number of the symbols. -/
theorem registerHolds {ds register : List Nat}
    (hds : ((significant text).take count).mapM digitValue? = some ds)
    (h : registerAfter text count = .ok register) :
    RegisterHolds (registerWidth (remaining text)) ds register := by
  rw [registerAfter_eq hds] at h
  cases h
  constructor
  case length_eq => rw [List.length_reverse, Radix.length_fixed]
  case byte_lt =>
    intro byte hbyte
    exact Radix.fixed_lt 256 _ _ (by decide) byte (List.mem_reverse.mp hbyte)
  case number =>
    rw [List.reverse_reverse, Radix.value_fixed, Nat.mod_eq_of_lt (value_lt_of_mapM hds)]

theorem registerAfter_succ {register : List Nat} {symbol : Char}
    (h : registerAfter text count = .ok register) (hsymbol : (significant text)[count]? = some symbol) :
    registerAfter text (count + 1) = pushSymbol register symbol := by
  rw [registerAfter] at h ⊢
  rw [List.take_add_one, hsymbol, Option.toList_some, List.foldlM_append, h]
  exact bind_pure (pushSymbol register symbol)

structure PassHolds (register : List Nat) (d : Nat) : Prop where
  total_le : ∀ total ∈ Radix.totals 256 58 register d, total ≤ 14847
  carry_eq_zero : Radix.carryOut 256 58 register d = 0

/-- One more symbol neither overflows a place nor leaves a carry. -/
theorem passHolds {register : List Nat} {symbol : Char} {d : Nat}
    (h : registerAfter text count = .ok register) (hsymbol : (significant text)[count]? = some symbol)
    (hd : digitValue? symbol = some d) :
    registerAfter text (count + 1) = .ok (Radix.mulAdd 256 58 register d) ∧ PassHolds register d := by
  have hnext : registerAfter text (count + 1) = .ok (Radix.mulAdd 256 58 register d) := by
    rw [registerAfter_succ h hsymbol, pushSymbol, hd]
  obtain ⟨ds, hds⟩ := exists_digits h
  have hbefore := registerHolds hds h
  refine ⟨hnext, ?_, ?_⟩
  · have hlt := (Radix.totals_lt hbefore.byte_lt (digit_of_digitValue? hd).1).1
    exact fun total htotal => Nat.le_of_lt_succ (hlt total htotal)
  · -- the number behind the pass fits as well, so nothing of it is in a carry
    have hroom := value_lt_of_mapM (mapM_take_succ hds hsymbol hd)
    rw [Radix.value_append, Radix.value_singleton, List.length_singleton, pow_one, ← hbefore.number,
      Radix.value_eq_ofDigits, List.reverse_reverse, ← hbefore.length_eq] at hroom
    exact Radix.carryOut_eq_zero hroom

end

/-- A character that stops the register stops the reader. -/
theorem decode_of_fault {text : String} {count : Nat} {fault : Fault}
    (h : registerAfter text count = .error fault) : decode text = .error fault := by
  have hall : (significant text).foldlM pushSymbol
      (List.replicate (registerWidth (remaining text)) 0) = .error fault := by
    rw [← List.take_append_drop count (significant text), List.foldlM_append]
    rw [registerAfter] at h
    rw [h]
    rfl
  rw [remaining_eq] at hall
  exact (bind_eq_error_iff ..).mpr (Or.inl hall)

/-- What is read comes from the register behind all symbols. -/
theorem exists_register {text : String} {bytes : Bytes} (h : decode text = .ok bytes) :
    ∃ register zeros, registerAfter text (significant text).length = .ok register ∧
      bytes = List.replicate zeros 0 ++ registerBytes register := by
  rw [decode, bind_eq_ok_iff] at h
  obtain ⟨register, hfold, hbytes⟩ := h
  have hregister : registerAfter text (significant text).length = .ok register := by
    rw [registerAfter, List.take_length, remaining_eq]
    exact hfold
  dsimp only at hbytes
  split_ifs at hbytes
  rw [List.map_const'] at hbytes
  exact ⟨register, _, hregister, (Except.ok.inj hbytes).symm⟩

/-- The number of the bytes that are read is that of the register. -/
theorem toNat_zeros_append_registerBytes {width : Nat} {ds register : List Nat} (zeros : Nat)
    (h : RegisterHolds width ds register) :
    Bytes.toNat (List.replicate zeros 0 ++ registerBytes register) = Radix.value 58 ds := by
  have hbytes : ∀ byte ∈ register.reverse.dropWhile (· = 0), byte < 256 := fun byte hbyte =>
    h.byte_lt byte (List.mem_reverse.mp ((List.dropWhile_suffix _).subset hbyte))
  rw [Bytes.toNat, List.map_append, List.map_replicate, registerBytes,
    Bytes.map_toNat_map_ofNat _ hbytes, Radix.value_append, UInt8.toNat_zero,
    Radix.value_replicate_zero, Nat.zero_mul, Nat.zero_add, Radix.value_dropWhile_zero, h.number]

/-- The width of the register is enough for a text of any length. Behind every symbol it holds the
number of all symbols read so far: the pass that takes in a symbol keeps every product in fourteen
bits and carries nothing out. Thus a text that is read is read as the whole number that it stands
for. -/
theorem register_holds_what_is_read :
    (∀ length, 58 ^ length ≤ 256 ^ (length * 733 / 1000 + 1)) ∧
      (∀ text count ds, ((significant text).take count).mapM digitValue? = some ds →
        ∃ register, registerAfter text count = .ok register ∧
          RegisterHolds (remaining text * 733 / 1000 + 1) ds register) ∧
      (∀ text count register symbol d, registerAfter text count = .ok register →
        (significant text)[count]? = some symbol → digitValue? symbol = some d →
        registerAfter text (count + 1) = .ok (Radix.mulAdd 256 58 register d) ∧
          PassHolds register d) ∧
      (∀ text count fault, registerAfter text count = .error fault → decode text = .error fault) ∧
      ∀ text bytes, decode text = .ok bytes →
        ∃ register zeros ds, registerAfter text (significant text).length = .ok register ∧
          bytes = List.replicate zeros 0 ++ registerBytes register ∧
          (significant text).mapM digitValue? = some ds ∧ bytes.toNat = Radix.value 58 ds := by
  refine ⟨capacity, ?_, ?_, ?_, ?_⟩
  · intro text count ds hds
    exact ⟨_, registerAfter_eq hds, registerHolds hds (registerAfter_eq hds)⟩
  · intro text count register symbol d h hsymbol hd
    exact passHolds h hsymbol hd
  · intro text count fault h
    exact decode_of_fault h
  · intro text bytes h
    obtain ⟨register, zeros, hregister, rfl⟩ := exists_register h
    obtain ⟨ds, hds⟩ := exists_digits hregister
    have hnumber := toNat_zeros_append_registerBytes zeros (registerHolds hds hregister)
    rw [List.take_length] at hds
    exact ⟨register, zeros, ds, hregister, rfl, hds, hnumber⟩

/-- The blank in front and the '1's do not go through the register; the bytes behind the word
count for its width. -/
theorem register_of_four_symbols :
    (∃ register, registerAfter " 11zi2A é" 2 = .ok register ∧ RegisterHolds 6 [57, 41] register) ∧
      PassHolds [19, 13, 0, 0, 0, 0] 1 ∧
      decode " 1z0" = .error (.badCharacter '0') ∧
      ∃ ds, (significant " 11zi2A").mapM digitValue? = some ds ∧ 0xabcdef = Radix.value 58 ds := by
  obtain ⟨-, hholds, hpass, hfault, hread⟩ := register_holds_what_is_read
  refine ⟨?_, ?_, ?_, ?_⟩
  · exact hholds " 11zi2A é" 2 [57, 41] (by decide +kernel)
  · exact (hpass " 11zi2A é" 2 _ '2' 1 (by decide +kernel) (by decide +kernel) (by decide)).2
  · exact hfault " 1z0" 2 _ (by decide +kernel)
  · obtain ⟨-, -, ds, -, -, hds, hnumber⟩ :=
      hread " 11zi2A" [0, 0, 0xab, 0xcd, 0xef] (by decide +kernel)
    exact ⟨ds, hds, hnumber⟩

end BitcoinKeys.Base58
