import BitcoinKeys.PublicKey
import BitcoinKeys.Proofs.Curve.Group
import Mathlib.GroupTheory.OrderOfElement

/-!
Every scalar has a public key. The generator has prime order, so no multiple of it by a positive
number below that order is the point at infinity, and every other element has coordinates.
-/
namespace BitcoinKeys

namespace Curve

theorem isScalar_iff (n : Nat) : isScalar n = true ↔ 0 < n ∧ n < order := by
  simp [isScalar]

theorem order_lt : order < 2 ^ 256 := by decide

/-- The chain that multiplies the generator by the order ends at infinity. -/
theorem multiple?_order : Point.generator.multiple? order = none := by decide +kernel

theorem order_smul_generator : order • Point.generator.toGroup = 0 :=
  (Point.multiple?_eq_none_iff _ order_lt).mp multiple?_order

/-- The order is prime and the generator is not zero. -/
theorem addOrderOf_generator : addOrderOf Point.generator.toGroup = order :=
  have : Fact order.Prime := ⟨prime_order⟩
  addOrderOf_eq_prime order_smul_generator Point.generator.toGroup_ne_zero

/-- No multiple by a scalar in range is infinity, so every such key has a public key. -/
theorem smul_generator_ne_zero {n : Nat} (hscalar : isScalar n = true) :
    n • Point.generator.toGroup ≠ 0 := by
  obtain ⟨hpositive, hbelow⟩ := (isScalar_iff n).mp hscalar
  rw [ne_eq, ← addOrderOf_dvd_iff_nsmul_eq_zero, addOrderOf_generator]
  exact Nat.not_dvd_of_pos_of_lt hpositive hbelow

theorem exists_multiple_generator {n : Nat} (hscalar : isScalar n = true) :
    ∃ p, Point.generator.multiple? n = some p := by
  have hsmall : n < 2 ^ 256 := ((isScalar_iff n).mp hscalar).2.trans order_lt
  rw [← Option.ne_none_iff_exists', ne_eq, Point.multiple?_eq_none_iff _ hsmall]
  exact smul_generator_ne_zero hscalar

end Curve

namespace PublicKey

theorem derive_eq_ok_iff (key : PrivateKey) (publicKey : PublicKey) :
    derive key = .ok publicKey ↔ Curve.isScalar key.scalar.toNat = true ∧
      Curve.Point.generator.multiple? key.scalar.toNat = some publicKey.point ∧
      publicKey.compressed = key.compressed := by
  obtain ⟨point, compressed⟩ := publicKey
  simp only [derive]
  by_cases hscalar : Curve.isScalar key.scalar.toNat = true
  · simp only [hscalar, true_and]
    cases Curve.Point.generator.multiple? key.scalar.toNat with
    | none => simp
    | some multiple => simp [eq_comm]
  · simp [hscalar]

theorem exists_derive {key : PrivateKey} (hscalar : Curve.isScalar key.scalar.toNat = true) :
    ∃ publicKey, derive key = .ok publicKey := by
  obtain ⟨point, hmultiple⟩ := Curve.exists_multiple_generator hscalar
  exact ⟨⟨point, key.compressed⟩, (derive_eq_ok_iff ..).mpr ⟨hscalar, hmultiple, rfl⟩⟩

end PublicKey
end BitcoinKeys
