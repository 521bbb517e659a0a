import BitcoinKeys.Curve.Multiple
import BitcoinKeys.Proofs.Curve.Field
import Mathlib.AlgebraicGeometry.EllipticCurve.Affine.Point

/-!
The points of the curve form a group, and the chain of doublings and additions computes in it. A
triple of Jacobian coordinates stands for one element of the group; each step of the chain is
followed there, through the cases in which it has no chord or tangent.
-/
namespace BitcoinKeys.Curve

def curve : WeierstrassCurve.Affine BaseField where
  a₁ := 0
  a₂ := 0
  a₃ := 0
  a₄ := 0
  a₆ := 7

abbrev Group := curve.Point

theorem ofNat_ne_zero {n : Nat} (hpositive : 0 < n) (hsmall : n < fieldPrime) :
    (n : BaseField) ≠ 0 := by
  rw [ne_eq, ZMod.natCast_eq_zero_iff]
  exact Nat.not_dvd_of_pos_of_lt hpositive hsmall

theorem two_ne_zero' : (2 : BaseField) ≠ 0 := by
  exact_mod_cast ofNat_ne_zero (n := 2) (by decide) (by decide)

theorem negY_eq (x y : BaseField) : curve.negY x y = -y := by
  simp [WeierstrassCurve.Affine.negY, curve]

theorem addX_eq (x₁ x₂ slope : BaseField) : curve.addX x₁ x₂ slope = slope ^ 2 - x₁ - x₂ := by
  simp [WeierstrassCurve.Affine.addX, curve]

theorem addY_eq (x₁ x₂ y₁ slope : BaseField) :
    curve.addY x₁ x₂ y₁ slope = slope * (x₁ - curve.addX x₁ x₂ slope) - y₁ := by
  rw [WeierstrassCurve.Affine.addY, WeierstrassCurve.Affine.negAddY, negY_eq]
  ring

theorem equation_iff (x y : BaseField) : curve.Equation x y ↔ y * y = x * x * x + 7 := by
  rw [WeierstrassCurve.Affine.equation_iff]
  simp only [curve, zero_mul, add_zero]
  ring_nf

theorem discriminant_ne_zero : WeierstrassCurve.Δ curve ≠ 0 := by
  have hdiscriminant : WeierstrassCurve.Δ curve = -((21168 : Nat) : BaseField) := by
    simp [WeierstrassCurve.Δ, WeierstrassCurve.b₂, WeierstrassCurve.b₄, WeierstrassCurve.b₆,
      WeierstrassCurve.b₈, curve]
    norm_num
  rw [hdiscriminant, neg_ne_zero]
  exact ofNat_ne_zero (by decide) (by decide)

/-- The discriminant is not zero, so every solution of the equation is a point of the group. -/
theorem nonsingular_iff (x y : BaseField) : curve.Nonsingular x y ↔ y * y = x * x * x + 7 := by
  rw [← equation_iff,
    WeierstrassCurve.Affine.equation_iff_nonsingular_of_Δ_ne_zero discriminant_ne_zero]

namespace Point

theorem nonsingular (p : Point) : curve.Nonsingular p.x.toField p.y.toField := by
  have := congrArg Coordinate.toField p.on_curve
  simpa [nonsingular_iff, cubic] using this

def toGroup (p : Point) : Group := .some p.x.toField p.y.toField p.nonsingular

theorem ofCoordinates?_eq_some_iff (x y : Coordinate) (p : Point) :
    ofCoordinates? x y = some p ↔ p.x = x ∧ p.y = y := by
  obtain ⟨px, py, hcurve⟩ := p
  rw [ofCoordinates?]
  split
  case isTrue => simp only [Option.some.injEq, mk.injEq, eq_comm]
  case isFalse hoff =>
    refine iff_of_false nofun fun hsame => hoff ?_
    obtain ⟨rfl, rfl⟩ := hsame
    exact hcurve

/-- Every element of the group but zero is a point with coordinates. -/
theorem exists_toGroup {P : Group} (hnonzero : P ≠ 0) : ∃ p : Point, p.toGroup = P := by
  cases P with
  | zero => exact absurd rfl hnonzero
  | some x y hnonsingular =>
    obtain ⟨x, rfl⟩ := Coordinate.toField_surjective x
    obtain ⟨y, rfl⟩ := Coordinate.toField_surjective y
    have hcurve : y * y = cubic x := by
      apply Coordinate.toField_injective
      simpa [cubic] using (nonsingular_iff _ _).mp hnonsingular
    exact ⟨⟨x, y, hcurve⟩, rfl⟩

theorem toGroup_ne_zero (p : Point) : p.toGroup ≠ 0 :=
  WeierstrassCurve.Affine.Point.some_ne_zero p.nonsingular

end Point

namespace Jacobian

def StandsFor (p : Jacobian) : Group → Prop
  | .zero => p.z.toField = 0
  | .some x y _ => p.z.toField ≠ 0 ∧ p.x.toField = x * p.z.toField ^ 2 ∧
      p.y.toField = y * p.z.toField ^ 3

variable {p : Jacobian} {P : Group}

theorem standsFor_zero_iff : p.StandsFor 0 ↔ p.z.toField = 0 := Iff.rfl

theorem standsFor_infinity : infinity.StandsFor 0 := Coordinate.toField_zero

theorem standsFor_ofPoint (q : Point) : (ofPoint q).StandsFor q.toGroup := by
  simp [StandsFor, Point.toGroup, ofPoint]

/-- Doubling is right for every triple; infinity has `z = 0` before and after. -/
theorem StandsFor.double (hstands : p.StandsFor P) : p.double.StandsFor (P + P) := by
  cases P with
  | zero =>
    have hz : p.z.toField = 0 := hstands
    change p.double.StandsFor (0 + 0)
    rw [add_zero, standsFor_zero_iff]
    simp [Jacobian.double, hz]
  | some x y hnonsingular =>
    obtain ⟨hz, hpx, hpy⟩ := hstands
    by_cases hvertical : y = 0
    · -- The tangent is vertical, and the denominator of the double is a multiple of `y`.
      have hopposite : y = curve.negY x y := by rw [negY_eq, hvertical, neg_zero]
      rw [WeierstrassCurve.Affine.Point.add_self_of_Y_eq hopposite, standsFor_zero_iff]
      simp [Jacobian.double, hpy, hvertical]
    · have htwo : (2 : BaseField) ≠ 0 := two_ne_zero'
      have htangent : y ≠ curve.negY x y := by
        rw [negY_eq, ne_eq, eq_neg_iff_add_eq_zero, ← two_mul]
        exact mul_ne_zero htwo hvertical
      have hslope : curve.slope x x y y = 3 * x ^ 2 / (2 * y) := by
        rw [WeierstrassCurve.Affine.slope_of_Y_ne rfl htangent, negY_eq]
        simp only [curve]
        ring
      rw [WeierstrassCurve.Affine.Point.add_self_of_Y_ne htangent]
      simp only [StandsFor, addX_eq, addY_eq, hslope, Jacobian.double, Coordinate.toField_mul,
        Coordinate.toField_sub, Coordinate.toField_add, Coordinate.toField_ofNat, hpx, hpy]
      refine ⟨?_, ?_, ?_⟩
      · exact mul_ne_zero (mul_ne_zero htwo (mul_ne_zero hvertical (pow_ne_zero 3 hz))) hz
      · field_simp
        ring
      · field_simp
        ring

/-- Equal points, opposite points and infinity are told apart before the chord is drawn. -/
theorem StandsFor.addPoint (hstands : p.StandsFor P) (q : Point) :
    (p.addPoint q).StandsFor (P + q.toGroup) := by
  cases P with
  | zero =>
    have hz : p.z = 0 := (Coordinate.toField_eq_zero_iff _).mp hstands
    change (p.addPoint q).StandsFor (0 + q.toGroup)
    rw [zero_add, Jacobian.addPoint, if_pos hz]
    exact standsFor_ofPoint q
  | some x y hnonsingular =>
    obtain ⟨hz, hpx, hpy⟩ := hstands
    have hzNe : p.z ≠ 0 := by rwa [ne_eq, ← Coordinate.toField_eq_zero_iff]
    -- The two differences that the chain compares with zero are those of the coordinates.
    have h : (q.x * (p.z * p.z) - p.x).toField = (q.x.toField - x) * p.z.toField ^ 2 := by
      simp only [Coordinate.toField_mul, Coordinate.toField_sub, hpx]
      ring
    have hr : (q.y * (p.z * p.z * p.z) - p.y).toField = (q.y.toField - y) * p.z.toField ^ 3 := by
      simp only [Coordinate.toField_mul, Coordinate.toField_sub, hpy]
      ring
    have h_zero : q.x * (p.z * p.z) - p.x = 0 ↔ x = q.x.toField := by
      rw [← Coordinate.toField_eq_zero_iff, h, mul_eq_zero, sub_eq_zero, eq_comm]
      simp [hz]
    have hrZero : q.y * (p.z * p.z * p.z) - p.y = 0 ↔ y = q.y.toField := by
      rw [← Coordinate.toField_eq_zero_iff, hr, mul_eq_zero, sub_eq_zero, eq_comm]
      simp [hz]
    simp only [Jacobian.addPoint, if_neg hzNe, h_zero, hrZero]
    by_cases hsameX : x = q.x.toField
    · -- There is no chord: the points are equal and the sum is a double, or they are opposite.
      rw [if_pos hsameX]
      by_cases hsameY : y = q.y.toField
      · have hsame : q.toGroup = .some x y hnonsingular := by
          simp only [Point.toGroup, hsameX, hsameY]
        rw [if_pos hsameY, hsame]
        exact StandsFor.double ⟨hz, hpx, hpy⟩
      · have hopposite : y = curve.negY q.x.toField q.y.toField :=
          (WeierstrassCurve.Affine.Y_eq_of_X_eq hnonsingular.1 q.nonsingular.1 hsameX).resolve_left
            hsameY
        rw [if_neg hsameY, Point.toGroup,
          WeierstrassCurve.Affine.Point.add_of_Y_eq hsameX hopposite]
        exact standsFor_infinity
    · have hchord : x - q.x.toField ≠ 0 := sub_ne_zero.mpr hsameX
      have hslope : curve.slope x q.x.toField y q.y.toField =
          (y - q.y.toField) / (x - q.x.toField) := WeierstrassCurve.Affine.slope_of_X_ne hsameX
      rw [if_neg hsameX, Point.toGroup, WeierstrassCurve.Affine.Point.add_of_X_ne hsameX]
      simp only [StandsFor, addX_eq, addY_eq, hslope, Coordinate.toField_mul,
        Coordinate.toField_sub, Coordinate.toField_add, hpx, hpy]
      refine ⟨?_, ?_, ?_⟩
      · rw [show q.x.toField * (p.z.toField * p.z.toField) - x * p.z.toField ^ 2 =
            -((x - q.x.toField) * p.z.toField ^ 2) by ring]
        exact mul_ne_zero hz (neg_ne_zero.mpr (mul_ne_zero hchord (pow_ne_zero 2 hz)))
      · field_simp
        ring
      · field_simp
        ring

/-- The denominators cancel in the field. -/
theorem StandsFor.toPoint?_eq_some_iff (hstands : p.StandsFor P) (q : Point) :
    p.toPoint? = some q ↔ q.toGroup = P := by
  cases P with
  | zero =>
    have hz : p.z = 0 := (Coordinate.toField_eq_zero_iff _).mp hstands
    rw [toPoint?, if_pos hz]
    exact iff_of_false nofun q.toGroup_ne_zero
  | some x y hnonsingular =>
    obtain ⟨hz, hpx, hpy⟩ := hstands
    have hzNe : p.z ≠ 0 := by rwa [ne_eq, ← Coordinate.toField_eq_zero_iff]
    have hxEq : (p.x * (p.z.inverse * p.z.inverse)).toField = x := by
      simp only [Coordinate.toField_mul, Coordinate.toField_inverse, hpx]
      field_simp
    have hyEq : (p.y * (p.z.inverse * p.z.inverse * p.z.inverse)).toField = y := by
      simp only [Coordinate.toField_mul, Coordinate.toField_inverse, hpy]
      field_simp
    -- Nothing is left of the curve equation as a condition, since `q` satisfies it.
    rw [toPoint?, if_neg hzNe, Point.ofCoordinates?_eq_some_iff]
    rw [Point.toGroup, WeierstrassCurve.Affine.Point.some.injEq, ← hxEq, ← hyEq,
      Coordinate.toField_injective.eq_iff, Coordinate.toField_injective.eq_iff]

end Jacobian

namespace Point

/-- The chain computes the multiple by the bits that it reads. -/
theorem standsFor_multipleBits (p : Point) (bits n : Nat) :
    (p.multipleBits bits n).StandsFor ((n % 2 ^ bits) • p.toGroup) := by
  induction bits generalizing n with
  | zero =>
    rw [pow_zero, Nat.mod_one, zero_nsmul]
    exact Jacobian.standsFor_infinity
  | succ bits ih =>
    -- The element behind the doubling is the multiple by the low bits without the last one.
    have htwice := (ih (n / 2)).double
    rw [mod_two_pow_succ, add_nsmul, add_nsmul, multipleBits]
    rcases Nat.mod_two_eq_zero_or_one n with heven | hodd
    · rw [if_neg (by omega), heven, zero_nsmul, add_zero]
      exact htwice
    · rw [if_pos hodd, hodd, one_nsmul]
      exact htwice.addPoint p

theorem multiple?_eq_some_iff (p q : Point) {n : Nat} (hsmall : n < 2 ^ 256) :
    p.multiple? n = some q ↔ q.toGroup = n • p.toGroup := by
  have hstands := p.standsFor_multipleBits 256 n
  rw [Nat.mod_eq_of_lt hsmall] at hstands
  exact hstands.toPoint?_eq_some_iff q

/-- No result means the point at infinity. -/
theorem multiple?_eq_none_iff (p : Point) {n : Nat} (hsmall : n < 2 ^ 256) :
    p.multiple? n = none ↔ n • p.toGroup = 0 := by
  rw [← not_iff_not, ← ne_eq, Option.ne_none_iff_exists']
  simp only [multiple?_eq_some_iff p _ hsmall]
  constructor
  · intro ⟨q, hsame⟩
    exact hsame ▸ q.toGroup_ne_zero
  · exact exists_toGroup

end Point
end BitcoinKeys.Curve
