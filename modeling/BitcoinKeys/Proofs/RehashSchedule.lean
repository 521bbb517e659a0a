import BitcoinKeys.RehashSchedule
import BitcoinKeys.Proofs.Decimal
import BitcoinKeys.Proofs.Except
import BitcoinKeys.Proofs.Text.Utf8
import Mathlib.Data.List.Nodup

/-!
The depths that a schedule asks for. A text is accepted for what stands between its commas, in any
order; a phrase can add one depth, the number of the digits that it ends in.
-/
namespace BitcoinKeys.RehashSchedule

theorem nodup_depths (schedule : RehashSchedule) : schedule.depths.Nodup :=
  schedule.ascending.imp Nat.ne_of_lt

/-- The order of the depths is no part of a schedule. -/
theorem eq_of_perm {x y : RehashSchedule} (hwildcard : x.wildcard = y.wildcard)
    (hdepths : x.depths.Perm y.depths) : x = y := by
  have hsame : x.depths = y.depths := by
    apply hdepths.eq_of_pairwise _ x.ascending y.ascending
    intro a b _ _ hbelow habove
    exact absurd hbelow habove.asymm
  cases x
  cases y
  cases hsame
  cases hwildcard
  rfl

/-- Different numbers can be the depths of a schedule. -/
theorem exists_of_nodup (wildcard : Bool) {depths : List Nat} (hdistinct : depths.Nodup) :
    ∃ schedule : RehashSchedule, schedule.wildcard = wildcard ∧ depths.Perm schedule.depths := by
  induction depths with
  | nil => exact ⟨⟨[], wildcard, .nil⟩, rfl, .refl _⟩
  | cons depth rest ih =>
    obtain ⟨hnew, hdistinct⟩ := List.nodup_cons.mp hdistinct
    obtain ⟨schedule, hsame, hperm⟩ := ih hdistinct
    have hnew : depth ∉ schedule.depths := mt hperm.mem_iff.mpr hnew
    let larger := insertDepth depth schedule.depths
    refine ⟨⟨larger, wildcard, pairwise_insertDepth hnew schedule.ascending⟩, rfl, ?_⟩
    exact (hperm.cons depth).trans (insertDepth_perm depth schedule.depths).symm

theorem entries_eq_splitOn (characters : List Char) :
    entries characters = characters.splitOn ',' := by
  induction characters with
  | nil => rfl
  | cons character rest ih =>
    rw [entries, ih, List.splitOn_cons_eq_if_modifyHead]
    by_cases hcomma : character = ','
    · rw [if_pos hcomma, if_pos (beq_iff_eq.mpr hcomma)]
    · rw [if_neg hcomma, if_neg (mt beq_iff_eq.mp hcomma)]
      -- the next character belongs to the first of the entries behind it
      cases hsplit : rest.splitOn ',' with
      | nil => exact absurd hsplit (List.splitOn_ne_nil ',' rest)
      | cons entry others => rfl

def depthOf (entry : List Char) : Nat := Radix.value 10 (entry.map Decimal.digitValue)

structure NamesDepth (entry : List Char) : Prop where
  nonempty : entry ≠ []
  digits : ∀ character ∈ entry, character.isDigit = true
  fits : depthOf entry < 2 ^ 64

/-- Any number of digits is read if their number fits in 64 bits, and no digits at all are not. -/
theorem parseDepth?_eq_some_iff (digits : List Char) (depth : Nat) :
    parseDepth? digits = some depth ↔
      (digits ≠ [] ∧ depthOf digits < 2 ^ 64) ∧ depthOf digits = depth := by
  rw [parseDepth?, Option.ite_none_left_eq_some, not_or, Nat.not_le, Option.some.injEq]
  rfl

theorem readDepth_eq_ok_iff (entry : List Char) (depth : Nat) :
    readDepth entry = .ok depth ↔ NamesDepth entry ∧ depthOf entry = depth := by
  rw [readDepth]
  by_cases hnegative : entry.head? = some '-'
  · rw [if_pos hnegative]
    apply iff_of_false nofun
    rintro ⟨hnamed, -⟩
    exact absurd (hnamed.digits _ (List.mem_of_head? hnegative)) (by decide)
  rw [if_neg hnegative]
  cases hunknown : entry.find? (!Char.isDigit ·) with
  | some character =>
    apply iff_of_false nofun
    rintro ⟨hnamed, -⟩
    have hdigit := hnamed.digits _ (List.mem_of_find?_eq_some hunknown)
    simpa [hdigit] using List.find?_some hunknown
  | none =>
    have hdigits : ∀ character ∈ entry, character.isDigit = true := by
      simpa [List.find?_eq_none] using hunknown
    have hnamed : NamesDepth entry ↔ entry ≠ [] ∧ depthOf entry < 2 ^ 64 :=
      ⟨fun hnamed => ⟨hnamed.nonempty, hnamed.fits⟩, fun h => ⟨h.1, hdigits, h.2⟩⟩
    rw [hnamed, ← parseDepth?_eq_some_iff]
    cases parseDepth? entry with
    | none => exact iff_of_false nofun nofun
    | some other => rw [Except.ok.injEq, Option.some.injEq]

def depthsOf (entries : List (List Char)) : List Nat := (entries.filter (· ≠ ['w'])).map depthOf

theorem depthsOf_cons {entry : List Char} (hplain : entry ≠ ['w']) (rest : List (List Char)) :
    depthsOf (entry :: rest) = depthOf entry :: depthsOf rest := by
  simp [depthsOf, hplain]

theorem mem_depthsOf_iff (entries : List (List Char)) (depth : Nat) :
    depth ∈ depthsOf entries ↔ ∃ entry ∈ entries, entry ≠ ['w'] ∧ depthOf entry = depth := by
  simp only [depthsOf, List.mem_map, List.mem_filter, decide_eq_true_eq, and_assoc]

theorem addWildcard_eq_ok_iff (schedule next : RehashSchedule) :
    schedule.addWildcard = .ok next ↔
      schedule.wildcard = false ∧ next = { schedule with wildcard := true } := by
  rw [addWildcard]
  cases schedule.wildcard with
  | true => exact iff_of_false nofun nofun
  | false => simp [eq_comm]

theorem addDepth_eq_ok_iff (schedule next : RehashSchedule) (depth : Nat) :
    schedule.addDepth depth = .ok next ↔
      next.wildcard = schedule.wildcard ∧ (depth :: schedule.depths).Perm next.depths := by
  rw [addDepth]
  by_cases hlisted : depth ∈ schedule.depths
  · rw [dif_pos hlisted]
    apply iff_of_false nofun
    rintro ⟨-, hperm⟩
    -- a depth that is listed already would be there twice
    exact (List.nodup_cons.mp (hperm.nodup_iff.mpr next.nodup_depths)).1 hlisted
  · rw [dif_neg hlisted, Except.ok.injEq]
    have hperm := insertDepth_perm depth schedule.depths
    constructor
    · rintro rfl
      exact ⟨rfl, hperm.symm⟩
    · rintro ⟨hwildcard, hdepths⟩
      exact eq_of_perm hwildcard.symm (hperm.trans hdepths)

/-- Whether a schedule is what entries make of the one at their start. No schedule has two wildcards
or a depth twice, so neither do the entries. -/
structure Collects (start : RehashSchedule) (entries : List (List Char)) (schedule : RehashSchedule) :
    Prop where
  names : ∀ entry ∈ entries, entry ≠ ['w'] → NamesDepth entry
  wildcards : entries.count ['w'] + start.wildcard.toNat = schedule.wildcard.toNat
  depths : (depthsOf entries ++ start.depths).Perm schedule.depths

variable {start schedule : RehashSchedule} {rest : List (List Char)}

theorem collects_nil_iff : Collects start [] schedule ↔ start = schedule := by
  constructor
  · intro hcollects
    have hwildcards := hcollects.wildcards
    rw [List.count_nil, Nat.zero_add] at hwildcards
    have hinjective : Function.Injective Bool.toNat := Function.LeftInverse.injective Bool.ofNat_toNat
    exact eq_of_perm (hinjective hwildcards) hcollects.depths
  · rintro rfl
    exact ⟨nofun, Nat.zero_add _, .refl _⟩

theorem collects_cons_wildcard_iff :
    Collects start (['w'] :: rest) schedule ↔
      start.wildcard = false ∧ Collects { start with wildcard := true } rest schedule := by
  constructor
  · intro hcollects
    have hwildcards := hcollects.wildcards
    have hle := schedule.wildcard.toNat_le
    rw [List.count_cons_self] at hwildcards
    have hfirst : start.wildcard = false := by
      apply Bool.toNat_eq_zero.mp
      omega
    rw [hfirst] at hwildcards
    refine ⟨hfirst, ?_, hwildcards, hcollects.depths⟩
    exact fun entry hmem => hcollects.names entry (List.mem_cons_of_mem _ hmem)
  · rintro ⟨hfirst, hcollects⟩
    refine ⟨?_, ?_, hcollects.depths⟩
    · intro entry hmem hplain
      exact hcollects.names entry (List.mem_of_ne_of_mem hplain hmem) hplain
    · rw [List.count_cons_self, hfirst]
      exact hcollects.wildcards

/-- An entry in front that is no wildcard is one step of the loop. -/
theorem collects_cons_iff {entry : List Char} (hplain : entry ≠ ['w']) :
    Collects start (entry :: rest) schedule ↔ NamesDepth entry ∧
      ∃ next, start.addDepth (depthOf entry) = .ok next ∧ Collects next rest schedule := by
  have hcount : (entry :: rest).count ['w'] = rest.count ['w'] := List.count_cons_of_ne hplain
  -- the depth of the entry may stand in front of all others or of those at the start
  have hperm : (depthsOf (entry :: rest) ++ start.depths).Perm
      (depthsOf rest ++ depthOf entry :: start.depths) := by
    rw [depthsOf_cons hplain]
    exact List.perm_middle.symm
  constructor
  · intro hcollects
    have hdistinct := hperm.symm.trans hcollects.depths |>.nodup_iff.mpr schedule.nodup_depths
    obtain ⟨next, hwildcard, hdepths⟩ :=
      exists_of_nodup start.wildcard (List.nodup_append.mp hdistinct).2.1
    refine ⟨hcollects.names entry List.mem_cons_self hplain, next,
      (addDepth_eq_ok_iff ..).mpr ⟨hwildcard, hdepths⟩, ?_⟩
    constructor
    case names => exact fun other hmem => hcollects.names other (List.mem_cons_of_mem _ hmem)
    case wildcards => rw [hwildcard, ← hcount, hcollects.wildcards]
    case depths => exact (hdepths.symm.append_left _).trans (hperm.symm.trans hcollects.depths)
  · rintro ⟨hnamed, next, hadded, hcollects⟩
    obtain ⟨hwildcard, hdepths⟩ := (addDepth_eq_ok_iff ..).mp hadded
    constructor
    case names =>
      intro other hmem hplain
      rcases List.mem_cons.mp hmem with rfl | hmem
      · exact hnamed
      · exact hcollects.names other hmem hplain
    case wildcards => rw [hcount, ← hwildcard, hcollects.wildcards]
    case depths => exact hperm.trans ((hdepths.append_left _).trans hcollects.depths)

/-- The loop over the entries collects them; induction with the schedule so far as the start. -/
theorem foldlM_addEntry_eq_ok_iff (entries : List (List Char)) (start schedule : RehashSchedule) :
    entries.foldlM addEntry start = .ok schedule ↔ Collects start entries schedule := by
  induction entries generalizing start with
  | nil =>
    rw [collects_nil_iff]
    exact (Except.ok.injEq start schedule).to_iff
  | cons entry rest ih =>
    rw [List.foldlM_cons, bind_eq_ok_iff]
    simp only [ih]
    by_cases hwildcard : entry = ['w']
    · subst hwildcard
      rw [collects_cons_wildcard_iff]
      simp only [addEntry, if_true, addWildcard_eq_ok_iff, and_assoc, exists_and_left,
        exists_eq_left]
    · rw [collects_cons_iff hwildcard]
      simp only [addEntry, if_neg hwildcard, bind_eq_ok_iff, readDepth_eq_ok_iff, and_assoc,
        exists_and_left, exists_eq_left']

theorem depthsOf_perm {entries others : List (List Char)} (hperm : entries.Perm others) :
    (depthsOf entries).Perm (depthsOf others) := (hperm.filter _).map depthOf

/-- The order of the entries makes no difference. -/
theorem Collects.of_perm {entries others : List (List Char)} (hperm : entries.Perm others)
    (hcollects : Collects start entries schedule) : Collects start others schedule := by
  constructor
  case names => exact fun entry hmem => hcollects.names entry (hperm.mem_iff.mpr hmem)
  case wildcards => rw [← hperm.count_eq, hcollects.wildcards]
  case depths => exact ((depthsOf_perm hperm).symm.append_right _).trans hcollects.depths

structure Admissible (entries : List (List Char)) : Prop where
  names : ∀ entry ∈ entries, entry ≠ ['w'] → NamesDepth entry
  wildcards : entries.count ['w'] ≤ 1
  distinct : (depthsOf entries).Nodup

/-- Entries are refused for one that names no depth, for a second wildcard or for a number that
comes twice. -/
theorem exists_collects_iff (entries : List (List Char)) :
    (∃ schedule, Collects empty entries schedule) ↔ Admissible entries := by
  constructor
  · rintro ⟨schedule, hcollects⟩
    have hwildcards : entries.count ['w'] = schedule.wildcard.toNat := hcollects.wildcards
    have hdepths : (depthsOf entries).Perm schedule.depths := by
      simpa [empty] using hcollects.depths
    constructor
    case names => exact hcollects.names
    case wildcards => exact hwildcards.trans_le schedule.wildcard.toNat_le
    case distinct => exact hdepths.nodup_iff.mpr schedule.nodup_depths
  · intro hadmissible
    obtain ⟨schedule, hwildcard, hdepths⟩ := exists_of_nodup (['w'] ∈ entries) hadmissible.distinct
    refine ⟨schedule, hadmissible.names, ?_, ?_⟩
    · -- one at most, so they are counted by whether there is one
      have honce := hadmissible.wildcards
      have hpresent : 0 < entries.count ['w'] ↔ ['w'] ∈ entries := List.count_pos_iff
      rw [hwildcard]
      by_cases hmem : ['w'] ∈ entries
      · have hpositive := hpresent.mpr hmem
        simp only [hmem, empty]
        exact Nat.le_antisymm honce hpositive
      · simp only [hmem, empty]
        exact List.count_eq_zero.mpr hmem
    · simpa [empty] using hdepths

theorem parse_eq_ok_iff (text : String) (schedule : RehashSchedule) :
    parse text = .ok schedule ↔ Collects empty (text.toList.splitOn ',') schedule := by
  rw [parse, entries_eq_splitOn, foldlM_addEntry_eq_ok_iff]

theorem wildcard_iff_of_parse {text : String} (hparsed : parse text = .ok schedule) :
    schedule.wildcard = true ↔ ['w'] ∈ text.toList.splitOn ',' := by
  have hwildcards : (text.toList.splitOn ',').count ['w'] = schedule.wildcard.toNat :=
    ((parse_eq_ok_iff ..).mp hparsed).wildcards
  rw [← List.count_pos_iff, hwildcards]
  cases schedule.wildcard with
  | false => exact iff_of_false nofun (Nat.lt_irrefl 0)
  | true => exact iff_of_true rfl Nat.one_pos

theorem depths_perm_of_parse {text : String} (hparsed : parse text = .ok schedule) :
    schedule.depths.Perm (depthsOf (text.toList.splitOn ',')) := by
  have hdepths := ((parse_eq_ok_iff ..).mp hparsed).depths
  rw [empty, List.append_nil] at hdepths
  exact hdepths.symm

/-- A text is read exactly if what stands between its commas is the wildcard, at most once, or the
numeral of a depth in 64 bits, and no depth is there twice, not even in other digits. The schedule
has these depths in ascending order, so the order of the entries does not matter. -/
theorem reads_distinct_numerals (text : String) :
    let entries := text.toList.splitOn ','
    ((∃ schedule, parse text = .ok schedule) ↔ Admissible entries) ∧
    (∀ schedule, parse text = .ok schedule →
      (schedule.wildcard = true ↔ ['w'] ∈ entries) ∧
      (schedule.resolve none).Pairwise (· < ·) ∧
      (schedule.resolve none).Perm (depthsOf entries)) ∧
    ∀ other : String, (other.toList.splitOn ',').Perm entries →
      ((∃ error, parse text = .error error) ∧ ∃ error, parse other = .error error) ∨
        ∃ schedule, parse text = .ok schedule ∧ parse other = .ok schedule := by
  intro entries
  refine ⟨?_, ?_, ?_⟩
  · simp only [parse_eq_ok_iff]
    exact exists_collects_iff entries
  · intro schedule hparsed
    -- without a phrase the wildcard stands for nothing
    have hplain : schedule.resolve none = schedule.depths := by
      rw [resolve]
      cases schedule.wildcard
      · rfl
      · rfl
    rw [hplain]
    exact ⟨wildcard_iff_of_parse hparsed, schedule.ascending, depths_perm_of_parse hparsed⟩
  · intro other hperm
    have hsame (schedule : RehashSchedule) :
        parse text = .ok schedule ↔ parse other = .ok schedule := by
      rw [parse_eq_ok_iff, parse_eq_ok_iff]
      exact ⟨Collects.of_perm hperm.symm, Collects.of_perm hperm⟩
    cases hfirst : parse text with
    | ok schedule => exact Or.inr ⟨schedule, rfl, (hsame schedule).mp hfirst⟩
    | error error =>
      refine Or.inl ⟨⟨error, rfl⟩, ?_⟩
      cases hsecond : parse other with
      | error error => exact ⟨error, rfl⟩
      | ok schedule =>
        rw [(hsame schedule).mpr hsecond] at hfirst
        cases hfirst

/-- One and one are the same depth in other digits. -/
example : parse "1,01" = .error (.invalidFormat (.duplicateDepth 1)) := by decide +kernel

def EndsIn (phrase : String) (number : Nat) : Prop :=
  ∃ front digits : List Char, phrase.toList = front ++ digits ∧ digits ≠ [] ∧
    (∀ character ∈ digits, character.isDigit = true) ∧
    (∀ character ∈ front.getLast?, character.isDigit = false) ∧ depthOf digits = number

def endNumber? (phrase : String) : Option Nat :=
  let digits := phrase.toList.rtakeWhile Char.isDigit
  if digits = [] then none else some (depthOf digits)

/-- The last digits are as many as there are, so a digit in front of them is out of the
question. -/
theorem endNumber?_eq_some_iff (phrase : String) (number : Nat) :
    endNumber? phrase = some number ↔ EndsIn phrase number := by
  rw [endNumber?]
  constructor
  · intro h
    obtain ⟨hne, hsame⟩ := Option.ite_none_left_eq_some.mp h
    exact ⟨phrase.toList.rdropWhile Char.isDigit, phrase.toList.rtakeWhile Char.isDigit,
      List.rdropWhile_append_rtakeWhile.symm, hne, fun c hc => List.mem_rtakeWhile_imp hc,
      Text.getLast?_rdropWhile Char.isDigit phrase.toList, Option.some.inj hsame⟩
  · rintro ⟨front, digits, hsplit, hne, hall, hfront, rfl⟩
    have htail := Text.rtakeWhile_append Char.isDigit front digits hall hfront
    rw [← hsplit] at htail
    simp only [htail, if_neg hne]

/-- The cut in front of the digits is never inside a character, and the number is dropped if it
does not fit in 64 bits. -/
theorem trailingNumber?_eq (phrase : String) :
    trailingNumber? phrase = (endNumber? phrase).filter (· < 2 ^ 64) := by
  let front := phrase.toList.rdropWhile Char.isDigit
  let digits := phrase.toList.rtakeWhile Char.isDigit
  have hsplit : front ++ digits = phrase.toList := List.rdropWhile_append_rtakeWhile
  have hbytes : ((Text.utf8 phrase).reverse.takeWhile
      fun byte => (Char.ofUInt8 byte).isDigit).length = Text.byteCount digits := by
    have hbytewise := Text.isBytewise_of_ascii fun _ => Decimal.lt_128_of_isDigit
    rw [← Text.length_encoding, ← hbytewise.rtakeWhile, List.rtakeWhile, List.length_reverse]
    rfl
  -- the cut falls between the last character that is no digit and the digits
  have hcut : Text.byteLength phrase - Text.byteCount digits = Text.byteCount front := by
    rw [Text.byteLength, ← hsplit, Text.byteCount_append, Nat.add_sub_cancel]
  have hread : Text.splitAtByte? (Text.byteCount front) phrase.toList = some (front, digits) :=
    (Text.splitAtByte?_eq_some_iff ..).mpr ⟨hsplit.symm, rfl⟩
  have hnone : Text.byteCount digits = 0 ↔ digits = [] :=
    ⟨Text.eq_nil_of_byteCount digits, fun h => h ▸ rfl⟩
  have htrailing : trailingNumber? phrase = if digits = [] then none else parseDepth? digits := by
    simp only [trailingNumber?, hbytes, hcut, hread, hnone]
    rfl
  rw [htrailing, endNumber?]
  by_cases hne : digits = []
  · rw [if_pos hne, if_pos hne]
    rfl
  · rw [if_neg hne, if_neg hne, Option.filter_some]
    split_ifs with hfits
    · exact (parseDepth?_eq_some_iff ..).mpr ⟨⟨hne, of_decide_eq_true hfits⟩, rfl⟩
    · apply Option.eq_none_iff_forall_ne_some.mpr
      intro depth hread
      exact hfits (decide_eq_true ((parseDepth?_eq_some_iff ..).mp hread).1.2)

/-- It makes no difference that a number does not fit in 64 bits, since it is too large then. -/
theorem resolve_eq (schedule : RehashSchedule) (phrase : Option String) :
    schedule.resolve phrase =
      schedule.withWildcard (if schedule.wildcard then phrase.bind endNumber? else none) := by
  have hdropped (number? : Option Nat) :
      schedule.withWildcard (number?.filter (· < 2 ^ 64)) = schedule.withWildcard number? := by
    cases number? with
    | none => rfl
    | some number =>
      rw [Option.filter_some]
      split_ifs with hfits
      · rfl
      -- a number of more than 64 bits is beyond what the wildcard may stand for
      · have hlarge : ¬(number ≤ wildcardMax ∧ number ∉ schedule.depths) := by
          rw [decide_eq_true_iff] at hfits
          rw [wildcardMax]
          omega
        rw [withWildcard, withWildcard, if_neg hlarge]
  rw [resolve]
  cases schedule.wildcard with
  | false => rfl
  | true =>
    cases phrase with
    | none => rfl
    | some phrase =>
      rw [if_pos rfl, if_pos rfl, Option.bind_some, Option.bind_some, trailingNumber?_eq, hdropped]

theorem pairwise_resolve (schedule : RehashSchedule) (phrase : Option String) :
    (schedule.resolve phrase).Pairwise (· < ·) := by
  rw [resolve, withWildcard.eq_def]
  split
  · split_ifs with hnew
    · exact pairwise_insertDepth hnew.2 schedule.ascending
    · exact schedule.ascending
  · exact schedule.ascending

/-- A depth is listed or the wildcard stands for it. -/
theorem mem_resolve_iff (schedule : RehashSchedule) (phrase : Option String) (depth : Nat) :
    depth ∈ schedule.resolve phrase ↔ depth ∈ schedule.depths ∨
      (schedule.wildcard = true ∧ ∃ input, phrase = some input ∧ EndsIn input depth) ∧
        depth ≤ wildcardMax := by
  have hnamed (number : Nat) :
      (if schedule.wildcard then phrase.bind endNumber? else none) = some number ↔
        schedule.wildcard = true ∧ ∃ input, phrase = some input ∧ EndsIn input number := by
    simp only [Option.ite_none_right_eq_some, Option.bind_eq_some_iff, endNumber?_eq_some_iff]
  rw [resolve_eq, ← hnamed]
  cases if schedule.wildcard then phrase.bind endNumber? else none with
  | none => simp [withWildcard]
  | some number =>
    by_cases hadds : number ≤ wildcardMax ∧ number ∉ schedule.depths
    · rw [withWildcard, if_pos hadds, (insertDepth_perm number schedule.depths).mem_iff,
        List.mem_cons, Option.some.injEq]
      constructor
      · rintro (rfl | hlisted)
        · exact Or.inr ⟨rfl, hadds.1⟩
        · exact Or.inl hlisted
      · rintro (hlisted | ⟨rfl, -⟩)
        · exact Or.inr hlisted
        · exact Or.inl rfl
    · -- too large, or listed already
      rw [withWildcard, if_neg hadds, Option.some.injEq]
      constructor
      · exact Or.inl
      · rintro (hlisted | ⟨rfl, hsmall⟩)
        · exact hlisted
        · exact Decidable.not_not.mp fun hnew => hadds ⟨hsmall, hnew⟩

/-- For a phrase, a schedule asks for the depths in its text and, if the wildcard is among its
entries, for the number of all digits at the end of the phrase, up to a million. Each of them
stands once, and in ascending order. -/
theorem resolves_listed_and_trailing {text : String} {schedule : RehashSchedule}
    (hparsed : parse text = .ok schedule) (phrase : Option String) :
    (schedule.resolve phrase).Pairwise (· < ·) ∧
    ∀ depth, depth ∈ schedule.resolve phrase ↔
      (∃ entry ∈ text.toList.splitOn ',', entry ≠ ['w'] ∧ depthOf entry = depth) ∨
      (['w'] ∈ text.toList.splitOn ',' ∧ ∃ input, phrase = some input ∧ EndsIn input depth) ∧
        depth ≤ 1000000 := by
  refine ⟨schedule.pairwise_resolve phrase, ?_⟩
  intro depth
  rw [mem_resolve_iff, wildcard_iff_of_parse hparsed, (depths_perm_of_parse hparsed).mem_iff,
    mem_depthsOf_iff]
  rfl

/-- Zeros in front of the number do not count, however many there are, nor does a digit that is
not in ASCII belong to it. -/
theorem resolves_zeros_and_limit :
    let schedule : RehashSchedule := ⟨[2, 7], true, by decide⟩
    let phrase := "3é٣00000000000000000000001000000"
    parse "2,w,07" = .ok schedule ∧ EndsIn phrase 1000000 ∧
      (schedule.resolve (some phrase)).Pairwise (· < ·) ∧
      1000000 ∈ schedule.resolve (some phrase) := by
  intro schedule phrase
  have hentries : "2,w,07".toList.splitOn ',' = [['2'], ['w'], ['0', '7']] := by decide
  have hparsed : parse "2,w,07" = .ok schedule := by
    rw [parse_eq_ok_iff, hentries]
    refine ⟨?_, by decide, by decide⟩
    simp only [List.forall_mem_cons]
    exact ⟨fun _ => ⟨by decide, List.all_eq_true.mp rfl, by decide⟩,
      fun hplain => absurd rfl hplain,
      fun _ => ⟨by decide, List.all_eq_true.mp rfl, by decide⟩, nofun⟩
  have hdigits : "00000000000000000000001000000".toList.all Char.isDigit = true := by decide
  have hends : EndsIn phrase 1000000 := by
    refine ⟨"3é٣".toList, "00000000000000000000001000000".toList, by decide, by decide,
      List.all_eq_true.mp hdigits, ?_, by decide⟩
    rintro character ⟨⟩
    rfl
  obtain ⟨hascending, hmem⟩ := resolves_listed_and_trailing hparsed (some phrase)
  have hwildcard : ['w'] ∈ "2,w,07".toList.splitOn ',' := hentries ▸ by decide
  have hadded := (hmem 1000000).mpr (Or.inr ⟨⟨hwildcard, phrase, rfl, hends⟩, Nat.le_refl _⟩)
  exact ⟨hparsed, hends, hascending, hadded⟩

end BitcoinKeys.RehashSchedule
