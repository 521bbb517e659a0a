import BitcoinKeys.Proofs.Curve.Group

/-!
Square roots of coordinates. The first coordinate of a point and the parity of the second determine
the point: a root that exists is found by a power, the two roots differ in parity, and no point has
zero as its second coordinate.
-/
namespace BitcoinKeys.Curve

namespace Coordinate

/-- A field has at most two square roots of an element. -/
theorem eq_or_eq_neg_of_mul_self_eq {a b : Coordinate} (hsame : a * a = b * b) :
    a = b ∨ a = -b := by
  have hsquares := congrArg toField hsame
  rw [toField_mul, toField_mul, mul_self_eq_mul_self_iff, ← toField_neg] at hsquares
  exact hsquares.imp (toField_injective ·) (toField_injective ·)

theorem neg_mul_neg_self (a : Coordinate) : -a * -a = a * a := by
  apply toField_injective
  rw [toField_mul, toField_mul, toField_neg, neg_mul_neg]

theorem neg_neg_self (a : Coordinate) : - -a = a := by
  apply toField_injective
  rw [toField_neg, toField_neg, neg_neg]

/-- Euler's criterion for a prime that is three modulo four. -/
theorem sqrtCandidate_mul_self {a root : Coordinate} (hsquare : root * root = a) :
    a.sqrtCandidate * a.sqrtCandidate = a := by
  subst hsquare
  have hexponent : (fieldPrime + 1) / 4 * 4 = fieldPrime + 1 := by decide
  apply toField_injective
  rw [toField_mul, sqrtCandidate, toField_pow _ (by decide), toField_mul]
  generalize root.toField = r
  calc (r * r) ^ ((fieldPrime + 1) / 4) * (r * r) ^ ((fieldPrime + 1) / 4)
      = r ^ ((fieldPrime + 1) / 4 * 4) := by ring
    _ = r ^ fieldPrime * r := by rw [hexponent, pow_succ]
    _ = r * r := by rw [ZMod.pow_card]

/-- The prime is odd, so one of a residue and its negative is odd. -/
theorem isOdd_neg {a : Coordinate} (hnonzero : a ≠ 0) : (-a).isOdd = !a.isOdd := by
  have hprimeOdd : fieldPrime % 2 = 1 := by decide
  have hpositive : 0 < a.val := Nat.pos_of_ne_zero fun hzero => hnonzero (Fin.ext hzero)
  have hbelow := a.isLt
  have hvalue : (-a).val = fieldPrime - a.val := by
    rw [Fin.val_neg', Nat.mod_eq_of_lt (by omega)]
  rw [isOdd, isOdd, hvalue, ← decide_not, decide_eq_decide]
  omega

/-- Seven is no cube: its power to a third of the order of the multiplicative group is not one. -/
theorem cube_ne_seven (a : Coordinate) : a * a * a ≠ 7 := by
  intro hcube
  have hpower : pow 7 ((fieldPrime - 1) / 3) ≠ 1 := by decide +kernel
  have hthird : 3 * ((fieldPrime - 1) / 3) = fieldPrime - 1 := by decide
  have hnonzero : a.toField ≠ 0 := by
    rw [ne_eq, toField_eq_zero_iff]
    intro hzero
    rw [hzero] at hcube
    exact absurd hcube (by decide)
  apply hpower
  apply toField_injective
  rw [toField_pow _ (by decide), ← hcube, toField_mul, toField_mul, toField_one]
  calc (a.toField * a.toField * a.toField) ^ ((fieldPrime - 1) / 3)
      = a.toField ^ (3 * ((fieldPrime - 1) / 3)) := by ring
    _ = a.toField ^ (fieldPrime - 1) := by rw [hthird]
    _ = 1 := ZMod.pow_card_sub_one_eq_one hnonzero

end Coordinate

theorem cubic_ne_zero (x : Coordinate) : cubic x ≠ 0 := by
  intro hzero
  have hfieldZero := congrArg Coordinate.toField hzero
  -- From `x ^ 3 + 7 = 0` the negative of `x` would be a cube root of seven.
  apply Coordinate.cube_ne_seven (-x)
  apply Coordinate.toField_injective
  simp only [cubic, Coordinate.toField_add, Coordinate.toField_mul, Coordinate.toField_ofNat,
    Coordinate.toField_neg, Coordinate.toField_zero] at hfieldZero ⊢
  linear_combination -hfieldZero

namespace Point

/-- No point is its own negative. -/
theorem y_ne_zero (p : Point) : p.y ≠ 0 := by
  intro hzero
  apply cubic_ne_zero p.x
  rw [← p.on_curve, hzero]
  decide

/-- Of the two points with a first coordinate, one has an odd second coordinate. -/
theorem exists_of_isOdd {x y : Coordinate} (hcurve : y * y = cubic x) (odd : Bool) :
    ∃ p : Point, p.x = x ∧ p.y.isOdd = odd := by
  let p : Point := ⟨x, y, hcurve⟩
  by_cases hparity : y.isOdd = odd
  · exact ⟨p, rfl, hparity⟩
  · have hopposite : -y * -y = cubic x := by rw [Coordinate.neg_mul_neg_self, hcurve]
    refine ⟨⟨x, -y, hopposite⟩, rfl, ?_⟩
    rw [Coordinate.isOdd_neg p.y_ne_zero]
    exact Bool.not_eq.mpr hparity

/-- The parity picks one of the two points with a first coordinate. -/
theorem ofX?_eq_some_iff (x : Coordinate) (odd : Bool) (p : Point) :
    ofX? x odd = some p ↔ p.x = x ∧ p.y.isOdd = odd := by
  rw [ofX?, ofCoordinates?_eq_some_iff]
  apply and_congr_right
  rintro rfl
  constructor
  · intro hsameY
    by_cases hparity : (cubic p.x).sqrtCandidate.isOdd = odd
    · rw [hsameY, if_pos hparity, hparity]
    · -- The power has the other parity, so its negative was taken; it is not zero either.
      rw [if_neg hparity] at hsameY
      have hnonzero : (cubic p.x).sqrtCandidate ≠ 0 := by
        intro hzero
        apply p.y_ne_zero
        rw [hsameY, hzero]
        decide
      rw [hsameY, Coordinate.isOdd_neg hnonzero]
      exact Bool.not_eq.mpr hparity
  · rintro rfl
    have hsquare := Coordinate.sqrtCandidate_mul_self p.on_curve
    rcases Coordinate.eq_or_eq_neg_of_mul_self_eq (hsquare.trans p.on_curve.symm) with hsame | hopposite
    · rw [hsame, if_pos rfl]
    · rw [hopposite, Coordinate.isOdd_neg p.y_ne_zero, if_neg (Bool.not_ne_self _),
        Coordinate.neg_neg_self]

end Point
end BitcoinKeys.Curve
