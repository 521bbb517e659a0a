import BitcoinKeys.Text
import Mathlib.Data.List.DropRight
import Mathlib.Data.List.TakeWhile

namespace BitcoinKeys.Text

def trimBlank (text : String) : String :=
  String.ofList ((text.toList.dropWhile isBlank).rdropWhile isBlank)

def upper (text : String) : String := String.ofList (text.toList.map Char.toUpper)

def IsAscii (characters : List Char) : Prop := ∀ c ∈ characters, c.toNat < 128

theorem ext_toList {x y : String} (h : x.toList = y.toList) : x = y := String.toList_inj.mp h

theorem rdropWhile_append_of_all {α : Type} (p : α → Bool) (xs ys : List α) (h : ∀ y ∈ ys, p y) :
    (xs ++ ys).rdropWhile p = xs.rdropWhile p := by
  have hr : ∀ y ∈ ys.reverse, p y := fun y hy => h y (List.mem_reverse.mp hy)
  rw [List.rdropWhile, List.reverse_append, List.dropWhile_append_of_pos hr, List.rdropWhile]

theorem rdropWhile_of_none {α : Type} (p : α → Bool) (xs : List α) (h : ∀ x ∈ xs, p x = false) :
    xs.rdropWhile p = xs := by
  refine (List.rdropWhile_eq_self_iff ..).mpr fun hl => ?_
  rw [h _ (List.getLast_mem hl)]
  exact Bool.false_ne_true

theorem rtakeWhile_append {α : Type} (p : α → Bool) (front back : List α)
    (hback : ∀ x ∈ back, p x = true) (hfront : ∀ x ∈ front.getLast?, p x = false) :
    (front ++ back).rtakeWhile p = back := by
  have hall : ∀ x ∈ back.reverse, p x = true := fun x hx => hback x (List.mem_reverse.mp hx)
  have hstop : front.reverse.takeWhile p = [] := by
    cases hreverse : front.reverse with
    | nil => rfl
    | cons last others =>
      have hlast : last ∈ front.getLast? := by
        rw [← List.head?_reverse, hreverse]
        rfl
      exact List.takeWhile_cons_of_neg (Bool.eq_false_iff.mp (hfront last hlast))
  rw [List.rtakeWhile, List.reverse_append, List.takeWhile_append_of_pos hall, hstop,
    List.append_nil, List.reverse_reverse]

theorem getLast?_rdropWhile {α : Type} (p : α → Bool) (xs : List α) :
    ∀ x ∈ (xs.rdropWhile p).getLast?, p x = false := by
  intro x hx
  obtain ⟨hne, rfl⟩ := List.mem_getLast?_eq_getLast hx
  exact Bool.eq_false_iff.mpr (List.rdropWhile_last_not p xs hne)

/-- What is read as one word between blanks is what trimming leaves, if that has no blanks in it. -/
theorem trimBlank_eq_iff (text : String) (word : List Char) (hw : ∀ c ∈ word, isBlank c = false) :
    trimBlank text = String.ofList word ↔
      (text.toList.dropWhile isBlank).takeWhile (!isBlank ·) = word ∧
        ((text.toList.dropWhile isBlank).dropWhile (!isBlank ·)).dropWhile isBlank = [] := by
  rw [trimBlank, String.ofList_inj]
  generalize text.toList.dropWhile isBlank = trimmed
  have hword : ∀ c ∈ word, (!isBlank c) = true := fun c hc => by rw [hw c hc, Bool.not_false]
  constructor
  · intro h
    -- behind the word there are only the blanks that trimming took away
    have hsplit : trimmed.rdropWhile isBlank ++ trimmed.rtakeWhile isBlank = trimmed :=
      List.rdropWhile_append_rtakeWhile
    rw [h] at hsplit
    have hblank : ∀ c ∈ trimmed.rtakeWhile isBlank, isBlank c := fun c hc =>
      List.mem_rtakeWhile_imp hc
    generalize trimmed.rtakeWhile isBlank = blanks at hsplit hblank
    subst hsplit
    rw [List.takeWhile_append_of_pos hword, List.dropWhile_append_of_pos hword]
    cases blanks with
    | nil => simp
    | cons b bs =>
      have hb : isBlank b = true := hblank b List.mem_cons_self
      simp only [List.takeWhile_cons, List.dropWhile_cons, hb, Bool.not_true, Bool.false_eq_true,
        if_false, List.append_nil, true_and, if_true]
      exact List.dropWhile_eq_nil_iff.mpr fun c hc => hblank c (List.mem_cons_of_mem b hc)
  · rintro ⟨rfl, h⟩
    have hrest := List.dropWhile_eq_nil_iff.mp h
    conv_lhs => rw [← List.takeWhile_append_dropWhile (p := (!isBlank ·)) (l := trimmed)]
    rw [rdropWhile_append_of_all _ _ _ hrest, rdropWhile_of_none _ _ hw]

theorem trimBlank_of_none (text : String) (h : ∀ c ∈ text.toList, isBlank c = false) :
    trimBlank text = text := by
  apply ext_toList
  have hdrop : text.toList.dropWhile isBlank = text.toList := by
    rw [List.dropWhile_eq_self_iff]
    intro hl
    rw [h _ (List.getElem_mem hl)]
    exact Bool.false_ne_true
  rw [trimBlank, String.toList_ofList, hdrop, rdropWhile_of_none _ _ h]

/-- Trimming makes no text longer. -/
theorem length_trimBlank_le (text : String) :
    (trimBlank text).toList.length ≤ text.toList.length := by
  rw [trimBlank, String.toList_ofList]
  exact (List.rdropWhile_prefix _ _).length_le.trans (List.dropWhile_suffix _).length_le

theorem countP_dropWhile_not {α : Type} (p : α → Bool) (xs : List α) :
    (xs.dropWhile p).countP (!p ·) = xs.countP (!p ·) := by
  have hnone : (xs.takeWhile p).countP (!p ·) = 0 := by
    refine List.countP_eq_zero.mpr fun x hx => ?_
    rw [List.mem_takeWhile_imp hx]
    exact Bool.false_ne_true
  conv_rhs => rw [← List.takeWhile_append_dropWhile (p := p) (l := xs)]
  rw [List.countP_append, hnone, Nat.zero_add]

/-- Trimming keeps everything that is not blank. -/
theorem countP_le_length_trimBlank (text : String) :
    text.toList.countP (!isBlank ·) ≤ (trimBlank text).toList.length := by
  calc text.toList.countP (!isBlank ·) = (trimBlank text).toList.countP (!isBlank ·) := by
        rw [trimBlank, String.toList_ofList, List.rdropWhile, List.countP_reverse,
          countP_dropWhile_not, List.countP_reverse, countP_dropWhile_not]
    _ ≤ (trimBlank text).toList.length := List.countP_le_length

theorem toNat_ofUInt8 (byte : UInt8) : (Char.ofUInt8 byte).toNat = byte.toNat :=
  UInt8.toNat_toUInt32 byte

theorem utf8Size_of_ascii (c : Char) (h : c.toNat < 128) : c.utf8Size = 1 := by
  rw [Char.utf8Size_eq_one_iff, UInt32.le_iff_toNat_le]
  exact Nat.le_of_lt_succ h

theorem utf8EncodeChar_of_ascii (c : Char) (h : c.toNat < 128) :
    String.utf8EncodeChar c = [UInt8.ofNat c.toNat] := by
  rw [String.utf8EncodeChar_eq_singleton (utf8Size_of_ascii c h)]
  rfl

/-- In ASCII bytes and characters are counted alike. -/
theorem byteCount_of_ascii (characters : List Char) (h : IsAscii characters) :
    byteCount characters = characters.length := by
  induction characters with
  | nil => rfl
  | cons c cs ih =>
    have hc := utf8Size_of_ascii c (h c List.mem_cons_self)
    have hcs := ih fun x hx => h x (List.mem_cons_of_mem c hx)
    rw [byteCount, hc, hcs, List.length_cons, Nat.add_comm]

theorem length_le_byteCount (characters : List Char) : characters.length ≤ byteCount characters := by
  induction characters with
  | nil => exact Nat.le_refl 0
  | cons c cs ih =>
    have hc := Char.utf8Size_pos c
    rw [byteCount, List.length_cons]
    omega

theorem byteCount_append (front back : List Char) :
    byteCount (front ++ back) = byteCount front + byteCount back := by
  induction front with
  | nil => rw [List.nil_append, byteCount, Nat.zero_add]
  | cons c front ih => rw [List.cons_append, byteCount, ih, byteCount, Nat.add_assoc]

/-- A text can be cut at a byte position between two characters and nowhere else. -/
theorem splitAtByte?_eq_some_iff (position : Nat) (text before after : List Char) :
    splitAtByte? position text = some (before, after) ↔
      text = before ++ after ∧ byteCount before = position := by
  fun_induction splitAtByte? position text generalizing before with
  | case1 text =>
    cases before with
    | nil => simp [byteCount]
    | cons d before =>
      -- every character takes a byte at least
      have hd := Char.utf8Size_pos d
      simp [byteCount]
      omega
  | case2 position hposition =>
    constructor
    · intro h
      cases h
    · rintro ⟨hnil, hbytes⟩
      rw [(List.append_eq_nil_iff.mp hnil.symm).1] at hbytes
      exact absurd hbytes.symm hposition
  | case3 position character rest hposition hfits ih =>
    cases before with
    | nil =>
      have hne : byteCount [] ≠ position := fun h => hposition h.symm
      simp [hne]
    | cons d before =>
      have hbytes : byteCount (character :: before) = position ↔
          byteCount before = position - character.utf8Size := by
        rw [byteCount]
        omega
      rw [Option.map_eq_some_iff, List.cons_append, List.cons.injEq]
      constructor
      · rintro ⟨halves, hsplit, hpair⟩
        cases hpair
        obtain ⟨hrest, hbefore⟩ := (ih _).mp hsplit
        exact ⟨⟨rfl, hrest⟩, hbytes.mpr hbefore⟩
      · rintro ⟨⟨rfl, hrest⟩, hbefore⟩
        exact ⟨(before, after), (ih before).mpr ⟨hrest, hbytes.mp hbefore⟩, rfl⟩
  | case4 position character rest hposition hcut =>
    constructor
    · intro h
      cases h
    · rintro ⟨htext, hbytes⟩
      -- the first character alone reaches behind the position
      cases before with
      | nil => exact absurd hbytes.symm hposition
      | cons d before =>
        rw [List.cons_append, List.cons.injEq] at htext
        rw [byteCount, ← htext.1] at hbytes
        omega

theorem utf8_of_ascii (text : String) (h : IsAscii text.toList) :
    utf8 text = text.toList.map fun c => UInt8.ofNat c.toNat := by
  rw [utf8, List.map_eq_flatMap]
  exact List.flatMap_congr fun c hc => utf8EncodeChar_of_ascii c (h c hc)

theorem toList_ofAscii (bytes : Bytes) : (ofAscii bytes).toList = bytes.map Char.ofUInt8 := by
  rw [ofAscii, String.toList_ofList]

theorem utf8_ofAscii (bytes : Bytes) (h : ∀ b ∈ bytes, b < 128) : utf8 (ofAscii bytes) = bytes := by
  have hascii : IsAscii (ofAscii bytes).toList := by
    intro c hc
    rw [toList_ofAscii] at hc
    obtain ⟨b, hb, rfl⟩ := List.mem_map.mp hc
    rw [toNat_ofUInt8]
    exact UInt8.lt_iff_toNat_lt.mp (h b hb)
  rw [utf8_of_ascii _ hascii, toList_ofAscii, List.map_map]
  refine (List.map_congr_left fun b _ => ?_).trans (List.map_id bytes)
  rw [Function.comp_apply, toNat_ofUInt8, UInt8.ofNat_toNat, id]

/-- Texts in ASCII can be told from their bytes. -/
theorem ofAscii_utf8 (text : String) (h : IsAscii text.toList) : ofAscii (utf8 text) = text := by
  apply ext_toList
  rw [toList_ofAscii, utf8_of_ascii text h, List.map_map]
  refine (List.map_congr_left fun c hc => ?_).trans (List.map_id text.toList)
  have hlt := h c hc
  apply Char.ext
  rw [← UInt32.toNat_inj]
  exact (toNat_ofUInt8 _).trans (UInt8.toNat_ofNat_of_lt' (Nat.lt_trans hlt (by decide)))

end BitcoinKeys.Text
