import BitcoinKeys.Proofs.Curve.Primality
import Mathlib.FieldTheory.Finite.Basic

/-!
Coordinates are the elements of the field of residues. The field carries the algebra, so that a
formula over coordinates is first taken to the field and then handled there.
-/
namespace BitcoinKeys.Curve

instance : Fact fieldPrime.Prime := ⟨prime_fieldPrime⟩

abbrev BaseField := ZMod fieldPrime

namespace Coordinate

def toField (a : Coordinate) : BaseField := (a.val : BaseField)

/-- Coordinates are residues in their smallest form. -/
theorem toField_injective : Function.Injective toField := by
  intro a b hsame
  have := (ZMod.natCast_eq_natCast_iff' _ _ _).mp hsame
  rw [Nat.mod_eq_of_lt a.isLt, Nat.mod_eq_of_lt b.isLt] at this
  exact Fin.ext this

theorem toField_surjective : Function.Surjective toField := fun residue =>
  ⟨⟨residue.val, residue.val_lt⟩, ZMod.natCast_zmod_val residue⟩

/-- A sum, a product or a difference is the remainder of one of the values. -/
theorem natCast_mod (n : Nat) : ((n % fieldPrime : Nat) : BaseField) = n := ZMod.natCast_mod n _

@[simp]
theorem toField_add (a b : Coordinate) : (a + b).toField = a.toField + b.toField := by
  simp only [toField, Fin.val_add, natCast_mod, Nat.cast_add]

@[simp]
theorem toField_mul (a b : Coordinate) : (a * b).toField = a.toField * b.toField := by
  simp only [toField, Fin.val_mul, natCast_mod, Nat.cast_mul]

@[simp]
theorem toField_neg (a : Coordinate) : (-a).toField = -a.toField := by
  simp only [toField, Fin.val_neg']
  rw [natCast_mod, Nat.cast_sub a.isLt.le, ZMod.natCast_self, zero_sub]

@[simp]
theorem toField_sub (a b : Coordinate) : (a - b).toField = a.toField - b.toField := by
  simp only [toField, Fin.sub_def, natCast_mod, Nat.cast_add]
  rw [Nat.cast_sub b.isLt.le, ZMod.natCast_self]
  ring

@[simp]
theorem toField_ofNat (n : Nat) [n.AtLeastTwo] :
    (ofNat(n) : Coordinate).toField = ofNat(n) :=
  natCast_mod n

@[simp]
theorem toField_zero : (0 : Coordinate).toField = 0 := Nat.cast_zero

@[simp]
theorem toField_one : (1 : Coordinate).toField = 1 := natCast_mod 1 |>.trans Nat.cast_one

@[simp]
theorem toField_eq_zero_iff (a : Coordinate) : a.toField = 0 ↔ a = 0 := by
  rw [← toField_zero, toField_injective.eq_iff]

/-- The power whose exponent is the low bits that are read. -/
@[simp]
theorem toField_powBits (a : Coordinate) (bits exponent : Nat) :
    (powBits a bits exponent).toField = a.toField ^ (exponent % 2 ^ bits) := by
  induction bits generalizing exponent with
  | zero => simp [powBits, Nat.mod_one]
  | succ bits ih =>
    rw [powBits, mod_two_pow_succ, apply_ite toField]
    simp only [toField_mul, ih, pow_add]
    rcases Nat.mod_two_eq_zero_or_one exponent with heven | hodd
    · rw [if_neg (by omega), heven, pow_zero, mul_one]
    · rw [if_pos hodd, hodd, pow_one]

theorem toField_pow (a : Coordinate) {exponent : Nat} (hsmall : exponent < 2 ^ 256) :
    (pow a exponent).toField = a.toField ^ exponent := by
  rw [pow, toField_powBits, Nat.mod_eq_of_lt hsmall]

/-- Fermat's little theorem, and zero stays zero. -/
@[simp]
theorem toField_inverse (a : Coordinate) : a.inverse.toField = a.toField⁻¹ := by
  rw [inverse, toField_pow a (by decide)]
  by_cases hzero : a.toField = 0
  · rw [hzero, inv_zero, zero_pow (by decide)]
  · apply eq_inv_of_mul_eq_one_left
    calc a.toField ^ (fieldPrime - 2) * a.toField
        = a.toField ^ (fieldPrime - 2 + 1) := (pow_succ ..).symm
      _ = a.toField ^ (fieldPrime - 1) := congrArg (a.toField ^ ·) (by decide)
      _ = 1 := ZMod.pow_card_sub_one_eq_one hzero

end Coordinate
end BitcoinKeys.Curve
