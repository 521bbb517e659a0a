import BitcoinKeys.Proofs.Bech32.Letters
import BitcoinKeys.Proofs.Vanity.Accounting

/-!
Patterns against the bytes of an address. A pattern is in ASCII, so the bytes it may stand at are whole
characters in any text, and only their case is left out of the comparison. Hence a search does not depend on
the case of its pattern.
-/
namespace BitcoinKeys.Vanity

open Text (byteCount byteLength encoding utf8 lowerByte)

theorem lt_128_of_isSymbol {kind : AddressKind} {c : Char} (h : kind.isSymbol c = true) :
    c.toNat < 128 := by
  cases kind with
  | p2pkh => exact Base58.lt_128_of_isSymbol h
  | p2wpkh =>
    obtain ⟨symbol, hsymbol⟩ := Option.isSome_iff_exists.mp h
    apply Text.lt_128_of_toLower
    rw [(Bech32.symbol?_eq_some_iff c symbol).mp hsymbol]
    exact Bech32.char_lt_128 symbol

namespace Pattern

variable (pattern : Pattern)

theorem isAscii : Text.IsAscii pattern.symbols := fun c hc =>
  lt_128_of_isSymbol (List.all_eq_true.mp pattern.all_symbols c hc)

def bytes : Bytes := encoding pattern.symbols

theorem length_bytes : pattern.bytes.length = byteCount pattern.symbols :=
  Text.length_encoding pattern.symbols

theorem map_lowerByte_bytes :
    pattern.bytes.map lowerByte = encoding (pattern.symbols.map Char.toLower) :=
  Text.map_lowerByte_encoding pattern.symbols

theorem bytes_ne_nil : pattern.bytes ≠ [] := fun h =>
  pattern.nonempty (Text.encoding_injective h)

theorem bytes_lt_128 : ∀ byte ∈ pattern.bytes, byte.toNat < 128 := by
  have hbytes := Text.isAscii_iff_bytes (String.ofList pattern.symbols)
  rw [utf8, String.toList_ofList] at hbytes
  exact hbytes.mp pattern.isAscii

/-- A pattern is at its place exactly if the bytes there are its own in any case. The place never
starts or ends inside a character if they are. -/
theorem isIn_iff_bytes (address : String) :
    pattern.isIn address = true ↔
      (((utf8 address).drop pattern.offset).take pattern.bytes.length).map lowerByte =
        pattern.bytes.map lowerByte := by
  rw [isIn_iff_carries, map_lowerByte_bytes]
  constructor
  · intro ⟨before, slice, after, htext, hbefore, hslice, hsame⟩
    have hwindow := Text.window_of_split before slice after
    rw [← htext, hbefore, hslice, ← length_bytes] at hwindow
    calc (((utf8 address).drop pattern.offset).take pattern.bytes.length).map lowerByte
        = (encoding slice).map lowerByte := congrArg (List.map lowerByte) hwindow
      _ = encoding (slice.map Char.toLower) := Text.map_lowerByte_encoding slice
      _ = encoding (pattern.symbols.map Char.toLower) := congrArg encoding hsame
  · intro hsame
    set slice := ((utf8 address).drop pattern.offset).take pattern.bytes.length with hslice
    have hlength : slice.length = pattern.bytes.length := by
      have hlengths := congrArg List.length hsame
      rwa [← map_lowerByte_bytes, List.length_map, List.length_map] at hlengths
    have hne : slice ≠ [] := by
      intro hnil
      rw [hnil, List.length_nil, eq_comm, List.length_eq_zero_iff] at hlength
      exact pattern.bytes_ne_nil hlength
    -- a byte that is equal to one in ASCII up to its case is in ASCII
    have hascii : ∀ byte ∈ slice, byte.toNat < 128 := by
      intro byte hbyte
      have hmem := List.mem_map_of_mem (f := lowerByte) hbyte
      rw [hsame, ← map_lowerByte_bytes] at hmem
      obtain ⟨own, hown, hcase⟩ := List.mem_map.mp hmem
      rw [← Text.lowerByte_lt_128_iff, ← hcase, Text.lowerByte_lt_128_iff]
      exact pattern.bytes_lt_128 own hown
    have hwindow : ((encoding address.toList).drop pattern.offset).take slice.length = slice := by
      rw [hlength]
      exact hslice.symm
    obtain ⟨before, middle, after, htext, hbefore, hmiddle⟩ :=
      Text.exists_split_of_window hne hascii hwindow
    refine ⟨before, middle, after, htext, hbefore, ?_, ?_⟩
    · rw [← Text.length_encoding, hmiddle, hlength, length_bytes]
    · apply Text.encoding_injective
      rw [← Text.map_lowerByte_encoding, hmiddle, hsame]

/-- A window that runs over the end of the address is shorter than the pattern. -/
theorem length_le_of_bytes (address : String)
    (h : (((utf8 address).drop pattern.offset).take pattern.bytes.length).map lowerByte =
      pattern.bytes.map lowerByte) :
    pattern.offset + pattern.bytes.length ≤ (utf8 address).length := by
  have hlength := congrArg List.length h
  have hpositive := List.length_pos_of_ne_nil pattern.bytes_ne_nil
  rw [List.length_map, List.length_map, List.length_take, List.length_drop] at hlength
  omega

/-- Patterns for one kind of address that differ in case only are in the same addresses. -/
theorem isIn_congr {pattern other : Pattern} (hkind : pattern.kind = other.kind)
    (hsymbols : pattern.symbols.map Char.toLower = other.symbols.map Char.toLower)
    (address : String) : pattern.isIn address = other.isIn address := by
  have hbytes : pattern.bytes.map lowerByte = other.bytes.map lowerByte := by
    rw [map_lowerByte_bytes, map_lowerByte_bytes, hsymbols]
  have hlength := congrArg List.length hbytes
  rw [List.length_map, List.length_map] at hlength
  rw [Bool.eq_iff_iff, isIn_iff_bytes, isIn_iff_bytes, hbytes, hlength, offset, offset, hkind]

/-- As many keys are expected for a pattern as for its lower case form. -/
theorem permutations_eq_lower :
    pattern.permutations =
      (pattern.symbols.map Char.toLower).foldl
        (fun total symbol => total * (if symbol.isAlpha then 29.0 else 58.0)) 1.0 := by
  simp only [permutations, List.foldl_map, Char.isAlpha_toLower_eq_isAlpha]

theorem permutations_congr {pattern other : Pattern}
    (hsymbols : pattern.symbols.map Char.toLower = other.symbols.map Char.toLower) :
    pattern.permutations = other.permutations := by
  rw [permutations_eq_lower, permutations_eq_lower, hsymbols]

end Pattern

namespace Search

variable {σ : Type} {search other : Search}

/-- A search depends on its pattern only through the keys that pass the check and through the
number of keys that it expects, and otherwise only on the interval between two reports. -/
theorem runFrom_congr (hcheck : search.check = other.check)
    (hinterval : search.reportEvery = other.reportEvery) (blocks : BlockStream) (host : Host σ)
    (estimator : Estimator) (limit attempts position : Nat) (surroundings : σ) :
    search.runFrom blocks host estimator limit attempts position surroundings =
      other.runFrom blocks host estimator limit attempts position surroundings := by
  have hdue : search.isReportDue = other.isReportDue := by
    funext number
    rw [isReportDue, isReportDue, hinterval]
  induction limit generalizing attempts position surroundings with
  | zero => rfl
  | succ limit ih => simp only [runFrom, hcheck, hdue, ih]

/-- The test of a key goes through the lower case form of the pattern only. -/
theorem check_congr (hnetwork : search.network = other.network)
    (hkind : search.pattern.kind = other.pattern.kind)
    (hsymbols : search.pattern.symbols.map Char.toLower = other.pattern.symbols.map Char.toLower) :
    search.check = other.check := by
  funext key
  rw [Search.check, Search.check, hkind, hnetwork]
  simp only [Pattern.isIn_congr hkind hsymbols]

end Search
end BitcoinKeys.Vanity
