import BitcoinKeys.Proofs.Base58
import BitcoinKeys.Proofs.Text.Utf8

/-! Why a text is not read. Reading goes over characters, but its outcome is decided by the bytes of the
text, and the character it reports is the whole one that the first byte at fault belongs to. -/
namespace BitcoinKeys.Base58

open Text (encoding byteCount isBlank isBlankByte)

theorem pushSymbol_of_isSymbol (register : List Nat) {c : Char} (h : isSymbol c = true) :
    ∃ next, pushSymbol register c = .ok next := by
  obtain ⟨v, hv, rfl⟩ := (isSymbol_iff c).mp h
  rw [pushSymbol, digitValue?_digit v hv]
  exact ⟨_, rfl⟩

theorem pushSymbol_of_not_isSymbol (register : List Nat) {c : Char} (h : isSymbol c = false) :
    pushSymbol register c = .error (.badCharacter c) := by
  have hnone : digitValue? c = none := by
    cases hv : digitValue? c with
    | none => rfl
    | some v =>
      rw [(isSymbol_iff c).mpr ⟨v, digit_of_digitValue? hv⟩] at h
      cases h
  rw [pushSymbol, hnone]

theorem foldlM_pushSymbol_of_symbols (register : List Nat) (characters : List Char)
    (h : ∀ c ∈ characters, isSymbol c = true) :
    ∃ last, characters.foldlM pushSymbol register = .ok last := by
  induction characters generalizing register with
  | nil => exact ⟨register, rfl⟩
  | cons c characters ih =>
    obtain ⟨hc, hrest⟩ := List.forall_mem_cons.mp h
    obtain ⟨next, hnext⟩ := pushSymbol_of_isSymbol register hc
    rw [List.foldlM_cons, hnext]
    exact ih next hrest

/-- The first character that is no symbol is reported, whatever follows it. -/
theorem foldlM_pushSymbol_of_bad (register : List Nat) {good more : List Char} {c : Char}
    (hgood : ∀ d ∈ good, isSymbol d = true) (hc : isSymbol c = false) :
    (good ++ c :: more).foldlM pushSymbol register = .error (.badCharacter c) := by
  obtain ⟨last, hlast⟩ := foldlM_pushSymbol_of_symbols register good hgood
  rw [List.foldlM_append, hlast]
  change List.foldlM pushSymbol last (c :: more) = _
  rw [List.foldlM_cons, pushSymbol_of_not_isSymbol last hc]
  rfl

def leading (text : String) : Bytes := (Text.utf8 text).takeWhile isBlankByte

def body (text : String) : Bytes :=
  ((Text.utf8 text).dropWhile isBlankByte).takeWhile (!isBlankByte ·)

def behind (text : String) : Bytes :=
  ((Text.utf8 text).dropWhile isBlankByte).dropWhile (!isBlankByte ·)

structure Parts (text : String) (front word rest : List Char) : Prop where
  text_eq : text.toList = front ++ (word ++ rest)
  word_eq : (text.toList.dropWhile isBlank).takeWhile (!isBlank ·) = word
  rest_eq : (text.toList.dropWhile isBlank).dropWhile (!isBlank ·) = rest
  leading_eq : leading text = encoding front
  body_eq : body text = encoding word
  behind_eq : behind text = encoding rest

/-- Every text has these three parts, the middle one without blanks. -/
theorem exists_parts (text : String) : ∃ front word rest, Parts text front word rest := by
  obtain ⟨hleading, hdrop⟩ := Text.isBytewise_isBlank.span text.toList
  obtain ⟨hbody, hbehind⟩ := Text.isBytewise_isBlank.not.span (text.toList.dropWhile isBlank)
  have hsplit : text.toList = text.toList.takeWhile isBlank ++
      ((text.toList.dropWhile isBlank).takeWhile (!isBlank ·) ++
        (text.toList.dropWhile isBlank).dropWhile (!isBlank ·)) := by
    rw [List.takeWhile_append_dropWhile, List.takeWhile_append_dropWhile]
  rw [← hdrop] at hbody hbehind
  exact ⟨_, _, _, hsplit, rfl, rfl, hleading, hbody, hbehind⟩

namespace Parts

variable {text : String} {front word rest : List Char} (h : Parts text front word rest)
include h

theorem decode_of_bad {good more : List Char} {c : Char} (hsplit : word = good ++ c :: more)
    (hgood : ∀ d ∈ good, isSymbol d = true) (hc : isSymbol c = false) :
    decode text = .error (.badCharacter c) := by
  -- the '1's in front are symbols, so the character is not among them
  have hone : c ≠ '1' := by
    rintro rfl
    cases hc
  have hdigits : word.dropWhile (· = '1') = good.dropWhile (· = '1') ++ c :: more := by
    rw [hsplit, List.dropWhile_append, List.dropWhile_cons_of_neg (by simpa using hone)]
    split_ifs with hempty
    · rw [List.isEmpty_iff.mp hempty, List.nil_append]
    · rfl
  have hlow : ∀ d ∈ good.dropWhile (· = '1'), isSymbol d = true := fun d hd =>
    hgood d ((List.dropWhile_suffix _).subset hd)
  rw [decode]
  simp only [h.word_eq, hdigits, foldlM_pushSymbol_of_bad _ hlow hc]
  rfl

/-- If the word has symbols only, what follows it decides. -/
theorem decode_of_symbols (hword : ∀ c ∈ word, isSymbol c = true) :
    ∃ bytes, decode text = if rest.dropWhile isBlank ≠ [] then
      .error (.characterAfterBlank (Text.byteLength text - byteCount (rest.dropWhile isBlank)))
    else .ok bytes := by
  have hlow : ∀ d ∈ word.dropWhile (· = '1'), isSymbol d = true := fun d hd =>
    hword d ((List.dropWhile_suffix _).subset hd)
  obtain ⟨last, hlast⟩ := foldlM_pushSymbol_of_symbols
    (List.replicate (registerWidth (byteCount (word.dropWhile (· = '1') ++ rest))) 0) _ hlow
  rw [decode]
  simp only [h.word_eq, h.rest_eq, hlast]
  exact ⟨_, rfl⟩

theorem decode_of_late (hword : ∀ c ∈ word, isSymbol c = true) {gap more : List Char} {c : Char}
    (hsplit : rest = gap ++ c :: more) (hgap : ∀ d ∈ gap, isBlank d = true)
    (hc : isBlank c = false) :
    decode text = .error (.characterAfterBlank (byteCount front + byteCount word + byteCount gap)) := by
  have hafter : rest.dropWhile isBlank = c :: more := by
    rw [hsplit, List.dropWhile_append_of_pos hgap,
      List.dropWhile_cons_of_neg (Bool.eq_false_iff.mp hc)]
  obtain ⟨bytes, hread⟩ := h.decode_of_symbols hword
  rw [hread, hafter, if_pos (List.cons_ne_nil c more), Text.byteLength, h.text_eq, hsplit]
  simp only [Text.byteCount_append]
  congr 2
  omega

theorem decode_of_clean (hword : ∀ c ∈ word, isSymbol c = true)
    (hrest : ∀ c ∈ rest, isBlank c = true) : ∃ bytes, decode text = .ok bytes := by
  obtain ⟨bytes, hread⟩ := h.decode_of_symbols hword
  rw [List.dropWhile_eq_nil_iff.mpr hrest] at hread
  exact ⟨bytes, hread⟩

end Parts

theorem isBytewise_isSymbol : Text.IsBytewise isSymbol isSymbolByte :=
  Text.isBytewise_of_ascii fun _ => lt_128_of_isSymbol

/-- Whether the body has a byte that is no symbol, the first of which starts this character. -/
def HasBadCharacter (text : String) (c : Char) : Prop :=
  ∃ k, (body text).findIdx? (!isSymbolByte ·) = some k ∧
    Text.StartsAt text ((leading text).length + k) c

/-- Whether all bytes of the body are symbols, and the first byte behind it that is no blank has
this position. -/
def HasLateByte (text : String) (position : Nat) : Prop :=
  (∀ byte ∈ body text, isSymbolByte byte = true) ∧
    ∃ k, (behind text).findIdx? (!isBlankByte ·) = some k ∧
      position = (leading text).length + (body text).length + k

def IsClean (text : String) : Prop :=
  (∀ byte ∈ body text, isSymbolByte byte = true) ∧ ∀ byte ∈ behind text, isBlankByte byte = true

namespace Parts

variable {text : String} {front word rest : List Char} (h : Parts text front word rest)
include h

/-- The first character at fault is the one that the first byte at fault starts. -/
theorem hasBadCharacter {good more : List Char} {c : Char} (hsplit : word = good ++ c :: more)
    (hgood : ∀ d ∈ good, isSymbol d = true) (hc : isSymbol c = false) : HasBadCharacter text c := by
  have hgood' : ∀ d ∈ good, (!isSymbol d) = false := fun d hd => by rw [hgood d hd, Bool.not_true]
  have hc' : (!isSymbol c) = true := by rw [hc, Bool.not_false]
  refine ⟨byteCount good, ?_, front ++ good, more ++ rest, ?_, ?_⟩
  · rw [h.body_eq, hsplit]
    exact isBytewise_isSymbol.not.findIdx?_eq good c more hgood' hc'
  · rw [h.text_eq, hsplit]
    simp only [List.append_assoc, List.cons_append]
  · rw [Text.byteCount_append, h.leading_eq, Text.length_encoding]

theorem forall_body (hword : ∀ c ∈ word, isSymbol c = true) :
    ∀ byte ∈ body text, isSymbolByte byte = true := by
  rw [h.body_eq]
  exact (isBytewise_isSymbol.forall_iff word true).mpr hword

theorem hasLateByte (hword : ∀ c ∈ word, isSymbol c = true) {gap more : List Char} {c : Char}
    (hsplit : rest = gap ++ c :: more) (hgap : ∀ d ∈ gap, isBlank d = true)
    (hc : isBlank c = false) :
    HasLateByte text (byteCount front + byteCount word + byteCount gap) := by
  have hgap' : ∀ d ∈ gap, (!isBlank d) = false := fun d hd => by rw [hgap d hd, Bool.not_true]
  have hc' : (!isBlank c) = true := by rw [hc, Bool.not_false]
  refine ⟨h.forall_body hword, byteCount gap, ?_, ?_⟩
  · rw [h.behind_eq, hsplit]
    exact Text.isBytewise_isBlank.not.findIdx?_eq gap c more hgap' hc'
  · rw [h.leading_eq, h.body_eq, Text.length_encoding, Text.length_encoding]

theorem isClean (hword : ∀ c ∈ word, isSymbol c = true) (hrest : ∀ c ∈ rest, isBlank c = true) :
    IsClean text := by
  refine ⟨h.forall_body hword, ?_⟩
  rw [h.behind_eq]
  exact (Text.isBytewise_isBlank.forall_iff rest true).mpr hrest

end Parts

/-- Whether an outcome is the one that the bytes of a text call for. -/
def Fits (text : String) : Except Fault Bytes → Prop
  | .ok _ => IsClean text
  | .error (.badCharacter c) => HasBadCharacter text c
  | .error (.characterAfterBlank position) => HasLateByte text position
  | .error (.tooShort _) => False
  | .error .badChecksum => False

/-- The three cases of the decoder, each told by bytes alone. -/
theorem fits_decode (text : String) : Fits text (decode text) := by
  obtain ⟨front, word, rest, h⟩ := exists_parts text
  cases hbad : word.find? (!isSymbol ·) with
  | some c =>
    obtain ⟨hc, good, more, hsplit, hgood⟩ := List.find?_eq_some_iff_append.mp hbad
    simp only [Bool.not_not, Bool.not_eq_true'] at hc hgood
    rw [h.decode_of_bad hsplit hgood hc]
    exact h.hasBadCharacter hsplit hgood hc
  | none =>
    have hword : ∀ c ∈ word, isSymbol c = true := by simpa using hbad
    cases hlate : rest.find? (!isBlank ·) with
    | some c =>
      obtain ⟨hc, gap, more, hsplit, hgap⟩ := List.find?_eq_some_iff_append.mp hlate
      simp only [Bool.not_not, Bool.not_eq_true'] at hc hgap
      rw [h.decode_of_late hword hsplit hgap hc]
      exact h.hasLateByte hword hsplit hgap hc
    | none =>
      have hrest : ∀ c ∈ rest, isBlank c = true := by simpa using hlate
      obtain ⟨bytes, hread⟩ := h.decode_of_clean hword hrest
      rw [hread]
      exact h.isClean hword hrest

/-- Only one character starts at the first bad byte. -/
theorem HasBadCharacter.eq {text : String} {c d : Char} (hc : HasBadCharacter text c)
    (hd : HasBadCharacter text d) : c = d := by
  obtain ⟨k, hk, hstart⟩ := hc
  obtain ⟨k', hk', hstart'⟩ := hd
  cases hk.symm.trans hk'
  exact hstart.eq hstart'

theorem HasLateByte.eq {text : String} {i j : Nat} (hi : HasLateByte text i)
    (hj : HasLateByte text j) : i = j := by
  obtain ⟨-, k, hk, rfl⟩ := hi
  obtain ⟨-, k', hk', rfl⟩ := hj
  cases hk.symm.trans hk'
  rfl

theorem HasBadCharacter.not_forall_body {text : String} {c : Char} (h : HasBadCharacter text c) :
    ¬ ∀ byte ∈ body text, isSymbolByte byte = true := by
  obtain ⟨k, hk, -⟩ := h
  intro hall
  have hnone : (body text).findIdx? (!isSymbolByte ·) = none := by simpa using hall
  rw [hnone] at hk
  cases hk

theorem HasLateByte.not_forall_behind {text : String} {position : Nat}
    (h : HasLateByte text position) : ¬ ∀ byte ∈ behind text, isBlankByte byte = true := by
  obtain ⟨-, k, hk, -⟩ := h
  intro hall
  have hnone : (behind text).findIdx? (!isBlankByte ·) = none := by simpa using hall
  rw [hnone] at hk
  cases hk

/-- The bytes of a text call for one fault or for none. -/
theorem Fits.eq {text : String} {x y : Except Fault Bytes} (hx : Fits text x) (hy : Fits text y) :
    x.map (fun _ => ()) = y.map (fun _ => ()) := by
  match x, y, hx, hy with
  | .ok _, .ok _, _, _ => rfl
  | .ok _, .error (.badCharacter _), hx, hy => exact absurd hx.1 hy.not_forall_body
  | .ok _, .error (.characterAfterBlank _), hx, hy => exact absurd hx.2 hy.not_forall_behind
  | .error (.badCharacter _), .ok _, hx, hy => exact absurd hy.1 hx.not_forall_body
  | .error (.badCharacter _), .error (.badCharacter _), hx, hy =>
    rw [HasBadCharacter.eq hx hy]
  | .error (.badCharacter _), .error (.characterAfterBlank _), hx, hy =>
    exact absurd hy.1 hx.not_forall_body
  | .error (.characterAfterBlank _), .ok _, hx, hy => exact absurd hy.2 hx.not_forall_behind
  | .error (.characterAfterBlank _), .error (.badCharacter _), hx, hy =>
    exact absurd hx.1 hy.not_forall_body
  | .error (.characterAfterBlank _), .error (.characterAfterBlank _), hx, hy =>
    rw [HasLateByte.eq hx hy]

/-- The decoder reports this fault exactly if the bytes call for it. -/
theorem decode_eq_error_iff (text : String) (fault : Fault) :
    decode text = .error fault ↔ Fits text (.error fault) := by
  have hfits := fits_decode text
  constructor
  · intro h
    rwa [h] at hfits
  · intro h
    have hsame := hfits.eq h
    cases hread : decode text with
    | ok bytes =>
      rw [hread] at hsame
      cases hsame
    | error other =>
      rw [hread] at hsame
      cases hsame
      rfl

theorem exists_decode_iff (text : String) : (∃ bytes, decode text = .ok bytes) ↔ IsClean text := by
  have hfits := fits_decode text
  constructor
  · rintro ⟨bytes, h⟩
    rwa [h] at hfits
  · intro h
    cases hread : decode text with
    | ok bytes => exact ⟨bytes, rfl⟩
    | error fault =>
      rw [hread] at hfits
      have hsame := hfits.eq (show Fits text (.ok []) from h)
      cases hsame

/-- There is no fault but those two: bytes that are too few, or the checksum, are not looked at
yet. -/
theorem decode_cases (text : String) :
    (∃ c, decode text = .error (.badCharacter c)) ∨
      (∃ position, decode text = .error (.characterAfterBlank position)) ∨
      ∃ bytes, decode text = .ok bytes := by
  have hfits := fits_decode text
  cases hread : decode text with
  | ok bytes => exact Or.inr (Or.inr ⟨bytes, rfl⟩)
  | error fault =>
    rw [hread] at hfits
    cases fault with
    | badCharacter c => exact Or.inl ⟨c, rfl⟩
    | characterAfterBlank position => exact Or.inr (Or.inl ⟨position, rfl⟩)
    | tooShort length => exact hfits.elim
    | badChecksum => exact hfits.elim

/-- A byte of the body that is no symbol is at fault wherever it stands: a character starts at the
first such byte, also outside ASCII. -/
theorem exists_bad_iff (text : String) :
    (∃ c, decode text = .error (.badCharacter c)) ↔
      ∃ byte ∈ body text, isSymbolByte byte = false := by
  have hnot : (∃ byte ∈ body text, isSymbolByte byte = false) ↔
      ¬ ∀ byte ∈ body text, isSymbolByte byte = true := by simp
  rw [hnot]
  constructor
  · rintro ⟨c, h⟩
    have hbad : HasBadCharacter text c := (decode_eq_error_iff text _).mp h
    exact hbad.not_forall_body
  · intro hbody
    rcases decode_cases text with hread | ⟨position, hread⟩ | hread
    · exact hread
    · have hlate : HasLateByte text position := (decode_eq_error_iff text _).mp hread
      exact absurd hlate.1 hbody
    · exact absurd ((exists_decode_iff text).mp hread).1 hbody

/-- A text is refused for the first byte of its body that is no symbol, by the whole character
that this byte starts; otherwise for the first byte behind the body that is no blank, by its
position; otherwise it is read. Nothing else happens. -/
theorem refused_for_first_byte_at_fault (text : String) :
    ((∃ c, decode text = .error (.badCharacter c)) ↔
        ∃ byte ∈ body text, isSymbolByte byte = false) ∧
      (∀ c, decode text = .error (.badCharacter c) ↔ HasBadCharacter text c) ∧
      (∀ position, decode text = .error (.characterAfterBlank position) ↔
        HasLateByte text position) ∧
      ((∃ bytes, decode text = .ok bytes) ↔ IsClean text) ∧
      ((∃ c, decode text = .error (.badCharacter c)) ∨
        (∃ position, decode text = .error (.characterAfterBlank position)) ∨
        ∃ bytes, decode text = .ok bytes) :=
  ⟨exists_bad_iff text, fun c => decode_eq_error_iff text (.badCharacter c),
    fun position => decode_eq_error_iff text (.characterAfterBlank position),
    exists_decode_iff text, decode_cases text⟩

/-- The character is reported although a blank and more text follow it. -/
example : decode "\t11é2 é" = .error (.badCharacter 'é') := by decide +kernel

end BitcoinKeys.Base58
