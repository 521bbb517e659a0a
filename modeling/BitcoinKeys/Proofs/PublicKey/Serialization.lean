import BitcoinKeys.PublicKey
import BitcoinKeys.Proofs.Bytes
import BitcoinKeys.Proofs.Except
import BitcoinKeys.Proofs.Hex
import BitcoinKeys.Proofs.Curve.SquareRoot

/-!
Serialized public keys. A byte string is read exactly if it is what is written for some key, and what
is written for the keys is described by the curve equation on the numbers in it.
-/
namespace BitcoinKeys

open Curve

namespace Curve

theorem Coordinate.ofNat?_eq_some_iff (n : Nat) (a : Coordinate) :
    Coordinate.ofNat? n = some a ↔ a.val = n := by
  rw [Coordinate.ofNat?]
  split_ifs with hbelow
  · rw [Option.some.injEq, Fin.ext_iff, eq_comm]
  · refine iff_of_false nofun ?_
    rintro rfl
    exact hbelow a.isLt

/-- The equation among coordinates is a congruence of their numbers. -/
theorem onCurve_iff (x y : Coordinate) :
    y * y = cubic x ↔ y.val ^ 2 ≡ x.val ^ 3 + 7 [MOD fieldPrime] := by
  have hsquare : ((y.val ^ 2 : Nat) : BaseField) = (y * y).toField := by
    rw [Coordinate.toField_mul, Coordinate.toField, Nat.cast_pow, pow_two]
  have hcube : ((x.val ^ 3 + 7 : Nat) : BaseField) = (cubic x).toField := by
    rw [cubic, Coordinate.toField_add, Coordinate.toField_mul, Coordinate.toField_mul,
      Coordinate.toField_ofNat, Coordinate.toField]
    push_cast
    ring
  rw [← ZMod.natCast_eq_natCast_iff, hsquare, hcube, Coordinate.toField_injective.eq_iff]

end Curve

namespace PublicKey

theorem length_coordinateBytes (a : Coordinate) : (coordinateBytes a).length = 32 :=
  Bytes.length_ofNat ..

theorem toNat_coordinateBytes (a : Coordinate) : (coordinateBytes a).toNat = a.val := by
  have hfits : fieldPrime < 256 ^ 32 := by decide
  rw [coordinateBytes, Bytes.toNat_ofNat, Nat.mod_eq_of_lt (a.isLt.trans hfits)]

theorem coordinateBytes_eq_iff {bytes : Bytes} (hlength : bytes.length = 32) (a : Coordinate) :
    coordinateBytes a = bytes ↔ a.val = bytes.toNat := by
  constructor
  · rintro rfl
    rw [toNat_coordinateBytes]
  · intro hvalue
    rw [coordinateBytes, hvalue, ← hlength, Bytes.ofNat_toNat]

theorem ofNat?_toNat_eq_some_iff {bytes : Bytes} (hlength : bytes.length = 32) (a : Coordinate) :
    Coordinate.ofNat? bytes.toNat = some a ↔ coordinateBytes a = bytes := by
  rw [Coordinate.ofNat?_eq_some_iff, coordinateBytes_eq_iff hlength]

/-- The parity byte and the first coordinate determine the point. -/
theorem shortPoint?_eq_some_iff {x : Bytes} (hlength : x.length = 32) (odd : Bool) (p : Point) :
    shortPoint? odd x = some p ↔ coordinateBytes p.x = x ∧ p.y.isOdd = odd := by
  simp only [shortPoint?, Option.bind_eq_bind, Option.bind_eq_some_iff,
    ofNat?_toNat_eq_some_iff hlength, Point.ofX?_eq_some_iff]
  constructor
  · rintro ⟨_, hwritten, rfl, hparity⟩
    exact ⟨hwritten, hparity⟩
  · rintro ⟨hwritten, hparity⟩
    exact ⟨p.x, hwritten, rfl, hparity⟩

theorem longPoint?_eq_some_iff {x y : Bytes} (hlengthX : x.length = 32) (hlengthY : y.length = 32)
    (p : Point) :
    longPoint? x y = some p ↔ coordinateBytes p.x = x ∧ coordinateBytes p.y = y := by
  simp only [longPoint?, Option.bind_eq_bind, Option.bind_eq_some_iff,
    ofNat?_toNat_eq_some_iff hlengthX, ofNat?_toNat_eq_some_iff hlengthY,
    Point.ofCoordinates?_eq_some_iff]
  constructor
  · rintro ⟨_, hwrittenX, _, hwrittenY, rfl, rfl⟩
    exact ⟨hwrittenX, hwrittenY⟩
  · rintro ⟨hwrittenX, hwrittenY⟩
    exact ⟨p.x, hwrittenX, p.y, hwrittenY, rfl, rfl⟩

def parityByte (odd : Bool) : UInt8 := if odd then 3 else 2

theorem toBytes_short (p : Point) :
    toBytes ⟨p, true⟩ = parityByte p.y.isOdd :: coordinateBytes p.x := rfl

theorem toBytes_long (p : Point) :
    toBytes ⟨p, false⟩ = 4 :: (coordinateBytes p.x ++ coordinateBytes p.y) := rfl

theorem length_toBytes (key : PublicKey) :
    key.toBytes.length = if key.compressed then 33 else 65 := by
  obtain ⟨p, compressed⟩ := key
  cases compressed
  · rw [toBytes_long, List.length_cons, List.length_append, length_coordinateBytes,
      length_coordinateBytes]
    rfl
  · rw [toBytes_short, List.length_cons, length_coordinateBytes]
    rfl

theorem ofPoint?_eq_ok_iff (point : Option Point) (compressed : Bool) (key : PublicKey) :
    ofPoint? point compressed = .ok key ↔ point = some key.point ∧ key.compressed = compressed := by
  obtain ⟨p, flag⟩ := key
  cases point with
  | none => simp [ofPoint?]
  | some q => simp [ofPoint?, eq_comm]

theorem ofBytes_short {rest : Bytes} (hlength : rest.length = 32) (odd : Bool) :
    ofBytes (parityByte odd :: rest) = ofPoint? (shortPoint? odd rest) true := by
  have hlength' : (parityByte odd :: rest).length = 33 := by rw [List.length_cons, hlength]
  cases odd
  · exact if_pos ⟨hlength', Or.inl rfl⟩
  · exact if_pos ⟨hlength', Or.inr rfl⟩

theorem ofBytes_long {rest : Bytes} (hlength : rest.length = 64) :
    ofBytes (4 :: rest) = ofPoint? (longPoint? (rest.take 32) (rest.drop 32)) false := by
  have hlength' : ((4 : UInt8) :: rest).length = 65 := by rw [List.length_cons, hlength]
  have hnotShort : (4 :: rest : Bytes).length ≠ 33 := by rw [hlength']; decide
  exact (if_neg fun hshort => hnotShort hshort.1).trans (if_pos ⟨hlength', rfl⟩)

/-- The first byte and the length go together in everything that is read. -/
theorem form_of_ofBytes {bytes : Bytes} {key : PublicKey} (hread : ofBytes bytes = .ok key) :
    (∃ odd rest, rest.length = 32 ∧ bytes = parityByte odd :: rest) ∨
      ∃ rest, rest.length = 64 ∧ bytes = 4 :: rest := by
  cases bytes with
  | nil => cases hread
  | cons first rest =>
    rw [ofBytes] at hread
    split at hread
    case isTrue hshort =>
      rcases hshort with ⟨hlength, rfl | rfl⟩
      · exact Or.inl ⟨false, rest, Nat.succ.inj hlength, rfl⟩
      · exact Or.inl ⟨true, rest, Nat.succ.inj hlength, rfl⟩
    case isFalse =>
      split at hread
      case isTrue hlong =>
        obtain ⟨hlength, rfl⟩ := hlong
        exact Or.inr ⟨rest, Nat.succ.inj hlength, rfl⟩
      case isFalse => cases hread

theorem ofBytes_toBytes (key : PublicKey) : ofBytes key.toBytes = .ok key := by
  obtain ⟨p, compressed⟩ := key
  cases compressed
  · have hlengthX := length_coordinateBytes p.x
    have hlengthY := length_coordinateBytes p.y
    rw [toBytes_long, ofBytes_long (by rw [List.length_append, hlengthX, hlengthY]),
      ofPoint?_eq_ok_iff, List.take_left' hlengthX, List.drop_left' hlengthX,
      longPoint?_eq_some_iff hlengthX hlengthY]
    exact ⟨⟨rfl, rfl⟩, rfl⟩
  · have hlength := length_coordinateBytes p.x
    rw [toBytes_short, ofBytes_short hlength, ofPoint?_eq_ok_iff, shortPoint?_eq_some_iff hlength]
    exact ⟨⟨rfl, rfl⟩, rfl⟩

theorem toBytes_of_ofBytes {bytes : Bytes} {key : PublicKey} (hread : ofBytes bytes = .ok key) :
    key.toBytes = bytes := by
  obtain ⟨p, compressed⟩ := key
  rcases form_of_ofBytes hread with ⟨odd, rest, hlength, rfl⟩ | ⟨rest, hlength, rfl⟩
  · rw [ofBytes_short hlength, ofPoint?_eq_ok_iff, shortPoint?_eq_some_iff hlength] at hread
    obtain ⟨⟨hwritten, hparity⟩, rfl⟩ := hread
    rw [toBytes_short, hwritten, hparity]
  · have hlengthX : (rest.take 32).length = 32 := by rw [List.length_take, hlength]; rfl
    have hlengthY : (rest.drop 32).length = 32 := by rw [List.length_drop, hlength]
    rw [ofBytes_long hlength, ofPoint?_eq_ok_iff, longPoint?_eq_some_iff hlengthX hlengthY] at hread
    obtain ⟨⟨hwrittenX, hwrittenY⟩, rfl⟩ := hread
    rw [toBytes_long, hwrittenX, hwrittenY, List.take_append_drop]

/-- A key is read from its own bytes and from no others. -/
theorem ofBytes_eq_ok_iff (bytes : Bytes) (key : PublicKey) :
    ofBytes bytes = .ok key ↔ key.toBytes = bytes := by
  constructor
  · exact toBytes_of_ofBytes
  · rintro rfl
    exact ofBytes_toBytes key

theorem ofHexAscii_toHex (key : PublicKey) : ofHexAscii (Text.utf8 key.toHex) = .ok key := by
  apply (bind_eq_ok_iff ..).mpr
  exact ⟨key.toBytes, Hex.decode_encode key.toBytes, ofBytes_toBytes key⟩

def xNumber (bytes : Bytes) : Nat := Bytes.toNat ((bytes.drop 1).take 32)

def yNumber (bytes : Bytes) : Nat := Bytes.toNat (bytes.drop 33)

theorem xNumber_toBytes (key : PublicKey) : xNumber key.toBytes = key.point.x.val := by
  obtain ⟨p, compressed⟩ := key
  have hlength := length_coordinateBytes p.x
  rw [← toNat_coordinateBytes, xNumber]
  cases compressed
  · rw [toBytes_long, List.drop_one, List.tail_cons, List.take_left' hlength]
  · rw [toBytes_short, List.drop_one, List.tail_cons, List.take_of_length_le hlength.le]

theorem yNumber_toBytes_long (p : Point) : yNumber (toBytes ⟨p, false⟩) = p.y.val := by
  rw [← toNat_coordinateBytes, yNumber, toBytes_long, List.drop_succ_cons,
    List.drop_left' (length_coordinateBytes p.x)]

structure IsLongForm (bytes : Bytes) : Prop where
  length : bytes.length = 65
  first : bytes.head? = some 4
  x_lt : xNumber bytes < fieldPrime
  y_lt : yNumber bytes < fieldPrime
  on_curve : yNumber bytes ^ 2 ≡ xNumber bytes ^ 3 + 7 [MOD fieldPrime]

structure IsShortForm (bytes : Bytes) : Prop where
  length : bytes.length = 33
  first : bytes.head? = some 2 ∨ bytes.head? = some 3
  x_lt : xNumber bytes < fieldPrime
  on_curve : ∃ y, y ^ 2 ≡ xNumber bytes ^ 3 + 7 [MOD fieldPrime]

theorem isLongForm_iff (bytes : Bytes) : IsLongForm bytes ↔ ∃ p, toBytes ⟨p, false⟩ = bytes := by
  constructor
  · intro ⟨hlength, hfirst, hxLt, hyLt, hcurve⟩
    obtain ⟨rest, rfl⟩ := List.head?_eq_some_iff.mp hfirst
    have hlengthRest : rest.length = 64 := Nat.succ.inj hlength
    let x : Coordinate := ⟨_, hxLt⟩
    let y : Coordinate := ⟨_, hyLt⟩
    have hwrittenX : coordinateBytes x = rest.take 32 := by
      apply (coordinateBytes_eq_iff (by rw [List.length_take, hlengthRest]; rfl) x).mpr
      rfl
    have hwrittenY : coordinateBytes y = rest.drop 32 := by
      apply (coordinateBytes_eq_iff (by rw [List.length_drop, hlengthRest]) y).mpr
      rfl
    refine ⟨⟨x, y, (onCurve_iff x y).mpr hcurve⟩, ?_⟩
    rw [toBytes_long, hwrittenX, hwrittenY, List.take_append_drop]
  · rintro ⟨p, rfl⟩
    constructor
    case length => exact length_toBytes _
    case first => rfl
    case x_lt => rw [xNumber_toBytes]; exact p.x.isLt
    case y_lt => rw [yNumber_toBytes_long]; exact p.y.isLt
    case on_curve =>
      rw [xNumber_toBytes, yNumber_toBytes_long]
      exact (onCurve_iff p.x p.y).mp p.on_curve

theorem isShortForm_iff (bytes : Bytes) : IsShortForm bytes ↔ ∃ p, toBytes ⟨p, true⟩ = bytes := by
  constructor
  · intro ⟨hlength, hfirst, hxLt, y, hcurve⟩
    obtain ⟨odd, rest, rfl⟩ : ∃ odd rest, bytes = parityByte odd :: rest := by
      rcases hfirst with hfirst | hfirst
      · exact ⟨false, List.head?_eq_some_iff.mp hfirst⟩
      · exact ⟨true, List.head?_eq_some_iff.mp hfirst⟩
    have hlengthRest : rest.length = 32 := Nat.succ.inj hlength
    -- The solution is any number; its remainder is the coordinate, and one of the two points with
    -- the first coordinate has the parity of the first byte.
    let x : Coordinate := ⟨_, hxLt⟩
    let root : Coordinate := ⟨y % fieldPrime, Nat.mod_lt _ (by decide)⟩
    have hsolves : root * root = cubic x :=
      (onCurve_iff x root).mpr (((Nat.mod_modEq y fieldPrime).pow 2).trans hcurve)
    obtain ⟨p, hsameX, hparity⟩ := Point.exists_of_isOdd hsolves odd
    have hwritten : coordinateBytes p.x = rest := by
      rw [coordinateBytes_eq_iff hlengthRest, hsameX]
      exact congrArg Bytes.toNat (List.take_of_length_le hlengthRest.le)
    exact ⟨p, by rw [toBytes_short, hwritten, hparity]⟩
  · rintro ⟨p, rfl⟩
    constructor
    case length => exact length_toBytes _
    case first =>
      rw [toBytes_short, List.head?_cons, Option.some.injEq, Option.some.injEq]
      cases p.y.isOdd
      · exact Or.inl rfl
      · exact Or.inr rfl
    case x_lt => rw [xNumber_toBytes]; exact p.x.isLt
    case on_curve =>
      rw [xNumber_toBytes]
      exact ⟨p.y.val, (onCurve_iff p.x p.y).mp p.on_curve⟩

/-- The byte strings that are read are the long and the short forms of points of the curve, and each
is what is written for the key that it is read as. -/
theorem reads_exactly_point_forms (bytes : Bytes) :
    ((∃ key, ofBytes bytes = .ok key) ↔ IsLongForm bytes ∨ IsShortForm bytes) ∧
    ∀ key, ofBytes bytes = .ok key →
      key.toBytes = bytes ∧ (key.compressed = true ↔ bytes.length = 33) ∧
        ofBytes key.toBytes = .ok key ∧ ∀ other, ofBytes other = .ok key → other = bytes := by
  constructor
  · rw [isLongForm_iff, isShortForm_iff]
    simp only [ofBytes_eq_ok_iff]
    constructor
    · intro ⟨⟨p, compressed⟩, hwritten⟩
      cases compressed
      · exact Or.inl ⟨p, hwritten⟩
      · exact Or.inr ⟨p, hwritten⟩
    · rintro (⟨p, hwritten⟩ | ⟨p, hwritten⟩)
      · exact ⟨⟨p, false⟩, hwritten⟩
      · exact ⟨⟨p, true⟩, hwritten⟩
  · intro key hread
    obtain rfl := toBytes_of_ofBytes hread
    refine ⟨rfl, ?_, hread, fun other hsame => (toBytes_of_ofBytes hsame).symm⟩
    rw [length_toBytes]
    split_ifs with hcompressed
    · exact iff_of_true hcompressed rfl
    · exact iff_of_false hcompressed (by decide)

/-- No point has the first coordinate five. -/
example : ofBytes (2 :: Bytes.ofNat 32 5) = .error (.invalidFormat .malformedPoint) := by
  decide +kernel

end PublicKey
end BitcoinKeys
