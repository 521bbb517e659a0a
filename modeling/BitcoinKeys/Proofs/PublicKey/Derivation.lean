import BitcoinKeys.Proofs.PublicKey
import BitcoinKeys.Proofs.PublicKey.Serialization

/-!
The public key of a private key. The scalar alone decides whether there is one and which point it is;
the flag is only handed on, so the two forms of one scalar are forms of the same point.
-/
namespace BitcoinKeys.PublicKey

open Curve

variable {key : PrivateKey} {publicKey : PublicKey}

theorem derive_of_not_isScalar (hinvalid : isScalar key.scalar.toNat = false) :
    derive key = .error (.invalidFormat .scalarRange) := by
  simp only [derive, hinvalid]
  rfl

/-- A public key is derived exactly for a scalar in range. -/
theorem exists_derive_iff (key : PrivateKey) :
    (∃ publicKey, derive key = .ok publicKey) ↔ isScalar key.scalar.toNat = true := by
  constructor
  · intro ⟨publicKey, hderived⟩
    exact ((derive_eq_ok_iff ..).mp hderived).1
  · exact exists_derive

theorem compressed_of_derive (hderived : derive key = .ok publicKey) :
    publicKey.compressed = key.compressed :=
  ((derive_eq_ok_iff ..).mp hderived).2.2

/-- The chain of doublings and additions ends at the multiple in the group of the curve. -/
theorem toGroup_of_derive (hderived : derive key = .ok publicKey) :
    publicKey.point.toGroup = key.scalar.toNat • Point.generator.toGroup := by
  obtain ⟨hscalar, hmultiple, -⟩ := (derive_eq_ok_iff ..).mp hderived
  have hsmall : key.scalar.toNat < 2 ^ 256 := ((isScalar_iff _).mp hscalar).2.trans order_lt
  exact (Point.multiple?_eq_some_iff _ _ hsmall).mp hmultiple

/-- The flag has no part in the point. -/
theorem derive_of_derive (hderived : derive key = .ok publicKey) {other : PrivateKey}
    (hsame : other.scalar = key.scalar) :
    derive other = .ok ⟨publicKey.point, other.compressed⟩ := by
  obtain ⟨hscalar, hmultiple, -⟩ := (derive_eq_ok_iff ..).mp hderived
  rw [derive_eq_ok_iff, hsame]
  exact ⟨hscalar, hmultiple, rfl⟩

/-- The first byte tells the form, and a key is in the form that its flag asks for. -/
theorem form_of_toBytes (publicKey : PublicKey) :
    if publicKey.compressed then
      publicKey.toBytes.length = 33 ∧
        (publicKey.toBytes.head? = some 2 ∨ publicKey.toBytes.head? = some 3)
    else publicKey.toBytes.length = 65 ∧ publicKey.toBytes.head? = some 4 := by
  obtain ⟨p, compressed⟩ := publicKey
  cases compressed
  · exact ⟨length_toBytes _, rfl⟩
  · have hshort := (isShortForm_iff _).mpr ⟨p, rfl⟩
    exact ⟨hshort.length, hshort.first⟩

/-- The short form is the first coordinate of the long form behind a byte for the parity of the
second. -/
theorem exists_coordinates (p : Point) :
    ∃ x y : Bytes, x.length = 32 ∧ y.length = 32 ∧ toBytes ⟨p, false⟩ = 4 :: (x ++ y) ∧
      toBytes ⟨p, true⟩ = (if y.toNat % 2 = 1 then 3 else 2) :: x := by
  refine ⟨coordinateBytes p.x, coordinateBytes p.y, length_coordinateBytes _,
    length_coordinateBytes _, toBytes_long p, ?_⟩
  rw [toBytes_short, parityByte, toNat_coordinateBytes, Coordinate.isOdd]
  simp only [decide_eq_true_eq]

structure IsPublicKeyOf (key : PrivateKey) (publicKey : PublicKey) : Prop where
  flag : publicKey.compressed = key.compressed
  form : if key.compressed then
      publicKey.toBytes.length = 33 ∧
        (publicKey.toBytes.head? = some 2 ∨ publicKey.toBytes.head? = some 3)
    else publicKey.toBytes.length = 65 ∧ publicKey.toBytes.head? = some 4
  on_curve : publicKey.point.y.val ^ 2 ≡ publicKey.point.x.val ^ 3 + 7 [MOD fieldPrime]
  multiple : publicKey.point.toGroup = key.scalar.toNat • Point.generator.toGroup
  read_bytes : ofBytes publicKey.toBytes = .ok publicKey
  read_hex : ofHex publicKey.toHex = .ok publicKey
  both_forms : ∃ long short, derive key.uncompress = .ok long ∧ derive key.compress = .ok short ∧
    long.point = publicKey.point ∧ short.point = publicKey.point ∧
    ∃ x y : Bytes, x.length = 32 ∧ y.length = 32 ∧ long.toBytes = 4 :: (x ++ y) ∧
      short.toBytes = (if y.toNat % 2 = 1 then 3 else 2) :: x

/-- A public key is derived for the scalars of the group and for no other number; either flag gives
the same point, in the form that it stands for, and both forms are read back. -/
theorem derives_points_of_scalars (key : PrivateKey) :
    ((∃ publicKey, derive key = .ok publicKey) ↔
      0 < key.scalar.toNat ∧ key.scalar.toNat < order) ∧
    (¬(0 < key.scalar.toNat ∧ key.scalar.toNat < order) →
      derive key = .error (.invalidFormat .scalarRange)) ∧
    ∀ publicKey, derive key = .ok publicKey → IsPublicKeyOf key publicKey := by
  rw [exists_derive_iff, ← isScalar_iff]
  refine ⟨Iff.rfl, fun hinvalid => derive_of_not_isScalar (Bool.eq_false_iff.mpr hinvalid), ?_⟩
  intro publicKey hderived
  have hflag := compressed_of_derive hderived
  constructor
  case flag => exact hflag
  case form =>
    rw [← hflag]
    exact form_of_toBytes publicKey
  case on_curve => exact (onCurve_iff ..).mp publicKey.point.on_curve
  case multiple => exact toGroup_of_derive hderived
  case read_bytes => exact ofBytes_toBytes publicKey
  case read_hex => exact ofHexAscii_toHex publicKey
  case both_forms =>
    exact ⟨_, _, derive_of_derive hderived rfl, derive_of_derive hderived rfl, rfl, rfl,
      exists_coordinates publicKey.point⟩

end BitcoinKeys.PublicKey
