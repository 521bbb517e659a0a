import BitcoinKeys.Bech32
import BitcoinKeys.Proofs.Except
import BitcoinKeys.Proofs.Text.Case

/-! Following the case of the letters through a text accepts the texts in one case, and such a text is
its lower case form or the upper case form of that. -/
namespace BitcoinKeys.Bech32

def OneCase (characters : List Char) : Prop :=
  (∀ c ∈ characters, c.isUpper = false) ∨ ∀ c ∈ characters, c.isLower = false

def LetterCase.Admits : LetterCase → List Char → Prop
  | .unknown, characters => OneCase characters
  | .lower, characters => ∀ c ∈ characters, c.isUpper = false
  | .upper, characters => ∀ c ∈ characters, c.isLower = false

theorem admits_nil (seen : LetterCase) : seen.Admits [] := by
  cases seen <;> simp [LetterCase.Admits, OneCase]

/-- The case that one more character leaves admits the same rest as the case before it did. -/
theorem admits_cons (seen : LetterCase) (c : Char) (rest : List Char) :
    seen.Admits (c :: rest) ↔ ∃ next, seen.push c = .ok next ∧ next.Admits rest := by
  have hexcl : c.isLower = true → c.isUpper = false := fun h =>
    Bool.eq_false_iff.mpr (Char.not_isUpper_of_isLower h)
  -- a lower case letter, an upper case letter, or no letter
  by_cases hl : c.isLower = true
  · have hu := hexcl hl
    cases seen <;> simp [LetterCase.push, LetterCase.Admits, OneCase, hl, hu]
  · have hl' : c.isLower = false := Bool.eq_false_iff.mpr hl
    by_cases hu : c.isUpper = true
    · cases seen <;> simp [LetterCase.push, LetterCase.Admits, OneCase, hl', hu]
    · have hu' : c.isUpper = false := Bool.eq_false_iff.mpr hu
      cases seen <;> simp [LetterCase.push, LetterCase.Admits, OneCase, hl', hu']

def IsPrintable (c : Char) : Prop := 33 ≤ c.toNat ∧ c.toNat ≤ 126

instance (c : Char) : Decidable (IsPrintable c) := inferInstanceAs (Decidable (_ ∧ _))

theorem isBlank_of_isPrintable {c : Char} (h : IsPrintable c) : Text.isBlank c = false := by
  apply Bool.eq_false_iff.mpr
  intro hblank
  simp only [Text.isBlank, Bool.or_eq_true, decide_eq_true_iff] at hblank
  rcases hblank with (((rfl | rfl) | rfl) | rfl) | rfl <;> exact absurd h (by decide)

/-- The state of the loop is the case of the letters so far, and an admitted rest is its
invariant. -/
theorem foldlM_pushPartCharacter (part rest : List Char) (seen : LetterCase) :
    (∃ next, part.foldlM pushPartCharacter seen = .ok next ∧ next.Admits rest) ↔
      (∀ c ∈ part, IsPrintable c) ∧ seen.Admits (part ++ rest) := by
  -- what may follow is kept in the statement, since a case alone does not tell what was seen
  induction part generalizing seen with
  | nil =>
    constructor
    · rintro ⟨next, hnext, hrest⟩
      cases hnext
      exact ⟨by simp, hrest⟩
    · rintro ⟨-, hrest⟩
      exact ⟨seen, rfl, hrest⟩
  | cons c cs ih =>
    simp only [List.foldlM_cons, bind_eq_ok_iff, List.cons_append, admits_cons,
      List.forall_mem_cons]
    constructor
    · rintro ⟨next, ⟨middle, hmiddle, hfold⟩, hrest⟩
      rw [pushPartCharacter] at hmiddle
      by_cases hp : 33 ≤ c.toNat ∧ c.toNat ≤ 126
      · rw [if_pos hp] at hmiddle
        obtain ⟨hcs, hadmits⟩ := (ih middle).mp ⟨next, hfold, hrest⟩
        exact ⟨⟨hp, hcs⟩, middle, hmiddle, hadmits⟩
      · rw [if_neg hp] at hmiddle
        cases hmiddle
    · rintro ⟨⟨hp, hcs⟩, middle, hmiddle, hadmits⟩
      obtain ⟨next, hfold, hrest⟩ := (ih middle).mpr ⟨hcs, hadmits⟩
      refine ⟨next, ⟨middle, ?_, hfold⟩, hrest⟩
      exact (if_pos hp).trans hmiddle

theorem idxOf?_char : ∀ symbol : Symbol, charset.idxOf? symbol.char = some symbol.toNat := by
  decide

theorem isUpper_char : ∀ symbol : Symbol, symbol.char.isUpper = false := by decide

theorem char_ne_one : ∀ symbol : Symbol, symbol.char ≠ '1' := by decide

theorem char_lt_128 : ∀ symbol : Symbol, symbol.char.toNat < 128 := by decide

theorem isPrintable_char : ∀ symbol : Symbol, IsPrintable symbol.char := by decide

/-- A symbol is read from either case of its character. -/
theorem symbol?_eq_some_iff (c : Char) (symbol : Symbol) :
    symbol? c = some symbol ↔ c.toLower = symbol.char := by
  rw [symbol?, Option.map_eq_some_iff]
  constructor
  · rintro ⟨i, hi, rfl⟩
    obtain ⟨hlt, heq, -⟩ := List.idxOf?_eq_some_iff.mp hi
    have hlt' : i < 2 ^ 5 := hlt
    rw [Symbol.char, BitVec.toNat_ofNat, Nat.mod_eq_of_lt hlt', List.getD_eq_getElem _ _ hlt]
    exact heq.symm
  · intro h
    refine ⟨symbol.toNat, ?_, ?_⟩
    · rw [h, idxOf?_char]
    · rw [BitVec.ofNat_toNat, BitVec.setWidth_eq]

/-- The loop accepts symbols in the case that the part left open. -/
theorem readSymbols_eq_ok_iff (seen : LetterCase) (characters : List Char) (symbols : List Symbol) :
    readSymbols seen characters = .ok symbols ↔
      seen.Admits characters ∧ characters.map Char.toLower = symbols.map Symbol.char := by
  induction characters generalizing seen symbols with
  | nil =>
    rw [readSymbols, List.map_nil, eq_comm (a := []), List.map_eq_nil_iff, Except.ok.injEq]
    exact ⟨fun h => ⟨admits_nil seen, h.symm⟩, fun h => h.2.symm⟩
  | cons c cs ih =>
    by_cases hwide : 128 ≤ c.toNat
    · rw [readSymbols, if_pos hwide]
      constructor
      · intro h
        cases h
      · rintro ⟨-, h⟩
        -- no character beyond ASCII has a symbol as its lower case form
        cases symbols with
        | nil => cases h
        | cons symbol symbols =>
          have hc : c.toLower = symbol.char := (List.cons.inj h).1
          have hascii := Text.lt_128_of_toLower c (hc ▸ char_lt_128 symbol)
          omega
    · rw [readSymbols, if_neg hwide, bind_eq_ok_iff, admits_cons]
      constructor
      · rintro ⟨next, hnext, h⟩
        cases hs : symbol? c with
        | none =>
          rw [hs] at h
          cases h
        | some symbol =>
          rw [hs] at h
          obtain ⟨rest, hrest, rfl⟩ := (map_eq_ok_iff _ _ _).mp h
          obtain ⟨hadmits, hmap⟩ := (ih next rest).mp hrest
          refine ⟨⟨next, hnext, hadmits⟩, ?_⟩
          rw [List.map_cons, List.map_cons, (symbol?_eq_some_iff c symbol).mp hs, hmap]
      · rintro ⟨⟨next, hnext, hadmits⟩, h⟩
        cases symbols with
        | nil => cases h
        | cons symbol rest =>
          obtain ⟨hc, hmap⟩ := List.cons.inj h
          refine ⟨next, hnext, ?_⟩
          rw [(symbol?_eq_some_iff c symbol).mpr hc]
          exact (map_eq_ok_iff _ _ _).mpr ⟨rest, (ih next rest).mpr ⟨hadmits, hmap⟩, rfl⟩

section

variable {characters : List Char} {symbols : List Symbol}
  (h : characters.map Char.toLower = symbols.map Symbol.char)
include h

theorem length_of_lower_symbols : characters.length = symbols.length := by
  have hl := congrArg List.length h
  rwa [List.length_map, List.length_map] at hl

theorem exists_symbol_of_mem {c : Char} (hc : c ∈ characters) :
    ∃ symbol : Symbol, c.toLower = symbol.char := by
  have hmem := List.mem_map_of_mem (f := Char.toLower) hc
  rw [h] at hmem
  obtain ⟨symbol, -, hs⟩ := List.mem_map.mp hmem
  exact ⟨symbol, hs.symm⟩

/-- No letter outside ASCII has a symbol as its lower case form. -/
theorem isAscii_of_lower_symbols : Text.IsAscii characters := by
  intro c hc
  obtain ⟨symbol, hs⟩ := exists_symbol_of_mem h hc
  apply Text.lt_128_of_toLower
  rw [hs]
  exact char_lt_128 symbol

/-- No symbol is written like the separator. -/
theorem one_notMem_of_lower_symbols : '1' ∉ characters := by
  intro hc
  obtain ⟨symbol, hs⟩ := exists_symbol_of_mem h hc
  exact char_ne_one symbol hs.symm

end

end BitcoinKeys.Bech32

namespace BitcoinKeys.Text

/-- The texts in one case whose lower case form is given are that form and its upper case form. -/
theorem oneCase_lower_iff (text lowered : String) (h : ∀ c ∈ lowered.toList, c.isUpper = false) :
    Bech32.OneCase text.toList ∧ lower text = lowered ↔ text = lowered ∨ text = upper lowered := by
  constructor
  · rintro ⟨hcase | hcase, rfl⟩
    · exact Or.inl (lower_of_no_upper text hcase).symm
    · exact Or.inr (upper_lower_of_no_lower text hcase).symm
  · rintro (rfl | rfl)
    · exact ⟨Or.inl h, lower_of_no_upper text h⟩
    · refine ⟨Or.inr fun c hc => ?_, (lower_upper lowered).trans (lower_of_no_upper lowered h)⟩
      rw [toList_upper] at hc
      obtain ⟨d, -, rfl⟩ := List.mem_map.mp hc
      exact Char.isLower_toUpper_eq_false d

end BitcoinKeys.Text
