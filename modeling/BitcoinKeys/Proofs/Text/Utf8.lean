import BitcoinKeys.Proofs.Text

/-! A scan that only asks for ASCII characters comes to the same whether it goes over the characters of a
text or over its bytes in UTF-8, since no byte of any other character is in ASCII. -/
namespace BitcoinKeys.Text

def encoding (characters : List Char) : Bytes := characters.flatMap String.utf8EncodeChar

theorem encoding_cons (c : Char) (characters : List Char) :
    encoding (c :: characters) = String.utf8EncodeChar c ++ encoding characters :=
  List.flatMap_cons

theorem encoding_append (front back : List Char) :
    encoding (front ++ back) = encoding front ++ encoding back :=
  List.flatMap_append

theorem length_encoding (characters : List Char) :
    (encoding characters).length = byteCount characters := by
  induction characters with
  | nil => rfl
  | cons c characters ih =>
    rw [encoding_cons, List.length_append, String.length_utf8EncodeChar, ih, byteCount]

theorem length_utf8 (text : String) : (utf8 text).length = byteLength text :=
  length_encoding text.toList

theorem le_toNat_of_marked (n bound mark : Nat) (hbound : 0 < bound) (hmark : 128 ≤ mark)
    (hbyte : bound + mark ≤ 256) : 128 ≤ (UInt8.ofNat (n % bound + mark)).toNat := by
  have hlt := Nat.mod_lt n hbound
  rw [UInt8.toNat_ofNat_of_lt' (by rw [UInt8.size]; omega)]
  omega

/-- Every byte of a longer character has its high bit set. -/
theorem le_of_mem_utf8EncodeChar {c : Char} (h : 128 ≤ c.toNat) :
    ∀ byte ∈ String.utf8EncodeChar c, 128 ≤ byte.toNat := by
  have hc : ¬ c.val.toNat ≤ 127 := Nat.not_le.mpr h
  have hmarked (n : Nat) {bound mark : Nat} (hb : 0 < bound ∧ 128 ≤ mark ∧ bound + mark ≤ 256) :=
    le_toNat_of_marked n bound mark hb.1 hb.2.1 hb.2.2
  -- two, three or four bytes, each of them some bits of the code point under a mark
  simp only [String.utf8EncodeChar, hc, if_false]
  split_ifs
  · simp only [List.forall_mem_cons]
    exact ⟨hmarked _ (by decide), hmarked _ (by decide), by simp⟩
  · simp only [List.forall_mem_cons]
    exact ⟨hmarked _ (by decide), hmarked _ (by decide), hmarked _ (by decide), by simp⟩
  · simp only [List.forall_mem_cons]
    exact ⟨hmarked _ (by decide), hmarked _ (by decide), hmarked _ (by decide), hmarked _ (by decide),
      by simp⟩

/-- Whether a test on bytes answers for each byte of a character as a test on characters does for
the character. -/
def IsBytewise (p : Char → Bool) (q : UInt8 → Bool) : Prop :=
  ∀ c, ∀ byte ∈ String.utf8EncodeChar c, q byte = p c

/-- A test that only ASCII characters pass can be made on bytes, since other characters have no
ASCII byte. -/
theorem isBytewise_of_ascii {p : Char → Bool} (h : ∀ c, p c = true → c.toNat < 128) :
    IsBytewise p fun byte => p (Char.ofUInt8 byte) := by
  intro c byte hbyte
  by_cases hc : c.toNat < 128
  · rw [utf8EncodeChar_of_ascii c hc, List.mem_singleton] at hbyte
    have hsame : Char.ofUInt8 byte = c := by
      apply Char.ext
      rw [← UInt32.toNat_inj, hbyte]
      exact (toNat_ofUInt8 _).trans (UInt8.toNat_ofNat_of_lt' (Nat.lt_trans hc (by decide)))
    exact congrArg p hsame
  · -- neither the character nor its bytes are in ASCII, so the test fails on all of them
    have hfar {d : Char} (hd : 128 ≤ d.toNat) : p d = false :=
      Bool.eq_false_iff.mpr fun hp => absurd (h d hp) (Nat.not_lt.mpr hd)
    have hge := le_of_mem_utf8EncodeChar (Nat.not_lt.mp hc) byte hbyte
    rw [← toNat_ofUInt8] at hge
    exact (hfar hge).trans (hfar (Nat.not_lt.mp hc)).symm

namespace IsBytewise

variable {p : Char → Bool} {q : UInt8 → Bool} (h : IsBytewise p q)
include h

theorem not : IsBytewise (!p ·) (!q ·) := fun c byte hbyte => congrArg (!·) (h c byte hbyte)

theorem exists_first (c : Char) : ∃ first rest, String.utf8EncodeChar c = first :: rest ∧
    q first = p c := by
  obtain ⟨first, rest, hbytes⟩ := List.exists_cons_of_ne_nil (String.utf8EncodeChar_ne_nil (c := c))
  exact ⟨first, rest, hbytes, h c first (hbytes ▸ List.mem_cons_self)⟩

theorem forall_iff (characters : List Char) (answer : Bool) :
    (∀ byte ∈ encoding characters, q byte = answer) ↔ ∀ c ∈ characters, p c = answer := by
  constructor
  · intro hall c hc
    obtain ⟨first, rest, hbytes, hfirst⟩ := h.exists_first c
    rw [← hfirst]
    exact hall first (List.mem_flatMap.mpr ⟨c, hc, hbytes ▸ List.mem_cons_self⟩)
  · intro hall byte hbyte
    obtain ⟨c, hc, hmem⟩ := List.mem_flatMap.mp hbyte
    rw [h c byte hmem, hall c hc]

/-- A run of characters that pass the test is a run of bytes that pass it. -/
theorem span (characters : List Char) :
    (encoding characters).takeWhile q = encoding (characters.takeWhile p) ∧
      (encoding characters).dropWhile q = encoding (characters.dropWhile p) := by
  induction characters with
  | nil => exact ⟨rfl, rfl⟩
  | cons c characters ih =>
    rw [encoding_cons]
    by_cases hc : p c = true
    · have hall : ∀ byte ∈ String.utf8EncodeChar c, q byte = true :=
        fun byte hbyte => (h c byte hbyte).trans hc
      rw [List.takeWhile_append_of_pos hall, List.dropWhile_append_of_pos hall,
        List.takeWhile_cons_of_pos hc, List.dropWhile_cons_of_pos hc, encoding_cons, ih.1, ih.2]
      exact ⟨rfl, rfl⟩
    · -- the first byte of the character already ends the run
      obtain ⟨first, rest, hbytes, hfirst⟩ := h.exists_first c
      rw [← hfirst] at hc
      have hcharacter : ¬ p c = true := hfirst ▸ hc
      rw [List.takeWhile_cons_of_neg hcharacter, List.dropWhile_cons_of_neg hcharacter,
        encoding_cons, hbytes, List.cons_append, List.takeWhile_cons_of_neg hc,
        List.dropWhile_cons_of_neg hc]
      exact ⟨rfl, rfl⟩

/-- The last characters that pass the test take the last bytes that pass it. -/
theorem rtakeWhile (characters : List Char) :
    (encoding characters).rtakeWhile q = encoding (characters.rtakeWhile p) := by
  have hstop := getLast?_rdropWhile p characters
  have hall : ∀ c ∈ characters.rtakeWhile p, p c = true := fun c hc => List.mem_rtakeWhile_imp hc
  conv_lhs => rw [← List.rdropWhile_append_rtakeWhile (p := p) (l := characters), encoding_append]
  apply rtakeWhile_append _ _ _ ((h.forall_iff _ true).mpr hall)
  -- the byte in front of them belongs to the last character that fails the test
  cases hfront : characters.rdropWhile p using List.reverseRecOn with
  | nil => nofun
  | append_singleton front last =>
    rw [hfront, List.getLast?_concat] at hstop
    have hlast : ∀ c ∈ [last], p c = false := by simpa using hstop
    have hne : encoding [last] ≠ [] := by simp [encoding_cons, String.utf8EncodeChar_ne_nil]
    rw [encoding_append, List.getLast?_append_of_ne_nil _ hne]
    exact fun byte hbyte => (h.forall_iff _ false).mpr hlast byte (List.mem_of_getLast? hbyte)

/-- The first byte that passes the test is the first one of the first such character. -/
theorem findIdx?_eq (front : List Char) (c : Char) (back : List Char)
    (hfront : ∀ d ∈ front, p d = false) (hc : p c = true) :
    (encoding (front ++ c :: back)).findIdx? q = some (byteCount front) := by
  have hnone : (encoding front).findIdx? q = none :=
    List.findIdx?_eq_none_iff.mpr ((h.forall_iff front false).mpr hfront)
  obtain ⟨first, rest, hbytes, hfirst⟩ := h.exists_first c
  rw [encoding_append, List.findIdx?_append, hnone, encoding_cons, hbytes, List.cons_append,
    List.findIdx?_cons, if_pos (hfirst.trans hc), Option.none_or, Option.map_some, length_encoding,
    Nat.zero_add]

end IsBytewise

/-- A text is in ASCII if its bytes are. -/
theorem isAscii_iff_bytes (text : String) :
    IsAscii text.toList ↔ ∀ byte ∈ utf8 text, byte.toNat < 128 := by
  have hbytewise := isBytewise_of_ascii (p := fun c => decide (c.toNat < 128)) (by simp)
  have hiff := hbytewise.forall_iff text.toList true
  simp only [decide_eq_true_iff, toNat_ofUInt8] at hiff
  exact hiff.symm

/-- UTF-8 can be read back. -/
theorem encoding_injective : Function.Injective encoding := by
  intro front back h
  have hbytes : front.utf8Encode = back.utf8Encode := congrArg List.toByteArray h
  rw [← String.toByteArray_ofList, ← String.toByteArray_ofList, String.toByteArray_inj] at hbytes
  exact String.ofList_injective hbytes

/-- A byte in ASCII is a whole character. -/
theorem utf8EncodeChar_of_mem {c : Char} {byte : UInt8} (hbyte : byte.toNat < 128)
    (hmem : byte ∈ String.utf8EncodeChar c) : String.utf8EncodeChar c = [byte] := by
  have hc : c.toNat < 128 := by
    by_contra hfar
    have hge := le_of_mem_utf8EncodeChar (Nat.not_lt.mp hfar) byte hmem
    omega
  rw [utf8EncodeChar_of_ascii c hc, List.mem_singleton] at hmem
  rw [utf8EncodeChar_of_ascii c hc, hmem]

/-- The bytes on both sides of a byte in ASCII are whole characters as well. -/
theorem exists_character_of_ascii {characters : List Char} {front back : Bytes} {byte : UInt8}
    (hbyte : byte.toNat < 128) (h : encoding characters = front ++ byte :: back) :
    ∃ before c after, characters = before ++ c :: after ∧ encoding before = front ∧
      String.utf8EncodeChar c = [byte] ∧ encoding after = back := by
  induction characters generalizing front with
  | nil => cases front <;> cases h
  | cons c characters ih =>
    -- the byte stands behind the first character, unless it is the only byte of that
    have hbehind {between : Bytes} (hfront : front = String.utf8EncodeChar c ++ between)
        (hrest : encoding characters = between ++ byte :: back) :
        ∃ before d after, c :: characters = before ++ d :: after ∧ encoding before = front ∧
          String.utf8EncodeChar d = [byte] ∧ encoding after = back := by
      obtain ⟨before, d, after, rfl, hbefore, hd, hafter⟩ := ih hrest
      refine ⟨c :: before, d, after, rfl, ?_, hd, hafter⟩
      rw [encoding_cons, hbefore, hfront]
    rw [encoding_cons] at h
    rcases List.append_eq_append_iff.mp h with ⟨between, hfront, hrest⟩ | ⟨own, hfirst, hrest⟩
    · exact hbehind hfront hrest
    · cases own with
      | nil =>
        have hfront : front = String.utf8EncodeChar c ++ [] := by
          rw [hfirst, List.append_nil, List.append_nil]
        exact hbehind hfront hrest.symm
      | cons first own =>
        obtain ⟨rfl, hback⟩ := List.cons.inj hrest
        have hmem : byte ∈ String.utf8EncodeChar c := by
          rw [hfirst]
          exact List.mem_append_right front List.mem_cons_self
        have honly := utf8EncodeChar_of_mem hbyte hmem
        rw [honly, eq_comm, List.append_eq_singleton_iff] at hfirst
        rcases hfirst with ⟨rfl, hown⟩ | ⟨-, hown⟩
        · cases hown
          exact ⟨[], c, characters, rfl, rfl, honly, hback.symm⟩
        · cases hown

/-- Bytes in ASCII that a text starts with are the whole characters that it starts with. -/
theorem exists_start_of_ascii {characters : List Char} {slice back : Bytes}
    (hslice : ∀ byte ∈ slice, byte.toNat < 128) (h : encoding characters = slice ++ back) :
    ∃ start rest, characters = start ++ rest ∧ encoding start = slice ∧ encoding rest = back := by
  induction slice generalizing characters with
  | nil => exact ⟨[], characters, rfl, rfl, h⟩
  | cons byte slice ih =>
    obtain ⟨hbyte, hrest⟩ := List.forall_mem_cons.mp hslice
    have hfirst : encoding characters = [] ++ byte :: (slice ++ back) := h
    obtain ⟨before, c, after, rfl, hbefore, hc, hafter⟩ := exists_character_of_ascii hbyte hfirst
    have hnone : before = [] := encoding_injective hbefore
    obtain ⟨start, rest, rfl, hstart, hback⟩ := ih hrest hafter
    refine ⟨c :: start, rest, ?_, ?_, hback⟩
    · rw [hnone, List.nil_append, List.cons_append]
    · rw [encoding_cons, hc, hstart, List.singleton_append]

theorem window_of_split (before middle after : List Char) :
    ((encoding (before ++ middle ++ after)).drop (byteCount before)).take (byteCount middle) =
      encoding middle := by
  rw [List.append_assoc, encoding_append, encoding_append, ← length_encoding before,
    ← length_encoding middle, List.drop_left, List.take_left]

/-- Bytes in ASCII are whole characters wherever they stand in a text, if there are any. -/
theorem exists_split_of_window {characters : List Char} {start : Nat} {slice : Bytes} (hne : slice ≠ [])
    (hslice : ∀ byte ∈ slice, byte.toNat < 128)
    (h : ((encoding characters).drop start).take slice.length = slice) :
    ∃ before middle after, characters = before ++ middle ++ after ∧ byteCount before = start ∧
      encoding middle = slice := by
  obtain ⟨byte, more, rfl⟩ := List.exists_cons_of_ne_nil hne
  obtain ⟨hbyte, hmore⟩ := List.forall_mem_cons.mp hslice
  obtain ⟨back, hback⟩ : ∃ back, (encoding characters).drop start = byte :: (more ++ back) := by
    refine ⟨((encoding characters).drop start).drop (byte :: more).length, ?_⟩
    rw [← List.cons_append, eq_comm]
    exact (congrArg (· ++ _) h.symm).trans (List.take_append_drop ..)
  have hsplit : encoding characters = (encoding characters).take start ++ byte :: (more ++ back) := by
    rw [← hback, List.take_append_drop]
  have hroom : start ≤ (encoding characters).length := by
    by_contra hbehind
    rw [List.drop_eq_nil_of_le (by omega), List.take_nil] at h
    cases h
  obtain ⟨before, c, after, rfl, hbefore, hc, hafter⟩ := exists_character_of_ascii hbyte hsplit
  obtain ⟨rest, after, rfl, hrest, -⟩ := exists_start_of_ascii hmore hafter
  refine ⟨before, c :: rest, after, ?_, ?_, ?_⟩
  · rw [List.append_assoc, List.cons_append]
  · rw [← length_encoding, hbefore, List.length_take, Nat.min_eq_left hroom]
  · rw [encoding_cons, hc, hrest, List.singleton_append]

def isBlankByte (byte : UInt8) : Bool := isBlank (Char.ofUInt8 byte)

theorem lt_128_of_isBlank {c : Char} (h : isBlank c = true) : c.toNat < 128 := by
  simp only [isBlank, Bool.or_eq_true, decide_eq_true_iff] at h
  rcases h with (((rfl | rfl) | rfl) | rfl) | rfl <;> decide

theorem isBytewise_isBlank : IsBytewise isBlank isBlankByte :=
  isBytewise_of_ascii fun _ => lt_128_of_isBlank

def StartsAt (text : String) (position : Nat) (c : Char) : Prop :=
  ∃ front back, text.toList = front ++ c :: back ∧ byteCount front = position

theorem eq_nil_of_byteCount (characters : List Char) (h : byteCount characters = 0) :
    characters = [] := by
  have hlength := length_le_byteCount characters
  exact List.length_eq_zero_iff.mp (by omega)

/-- At most one character starts at a position. -/
theorem StartsAt.eq {text : String} {position : Nat} {c d : Char} (hc : StartsAt text position c)
    (hd : StartsAt text position d) : c = d := by
  obtain ⟨front, back, htext, hfront⟩ := hc
  obtain ⟨front', back', htext', hfront'⟩ := hd
  -- one of the two fronts is an initial part of the other, and no bytes are left between their ends
  have hsame : front = front' := by
    rcases List.append_eq_append_iff.mp (htext.symm.trans htext') with
      ⟨middle, rfl, -⟩ | ⟨middle, rfl, -⟩
    · rw [byteCount_append] at hfront'
      rw [eq_nil_of_byteCount middle (by omega), List.append_nil]
    · rw [byteCount_append] at hfront
      rw [eq_nil_of_byteCount middle (by omega), List.append_nil]
  rw [htext, hsame] at htext'
  exact (List.cons.inj (List.append_cancel_left htext')).1

end BitcoinKeys.Text
