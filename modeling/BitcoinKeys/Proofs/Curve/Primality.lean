import BitcoinKeys.Curve.Point
import Mathlib.Data.List.Prime
import Mathlib.NumberTheory.LucasPrimality

/-!
The field size and the order of the curve are prime. Lucas's test reduces this to the prime factors
of their predecessors, those to the factors of theirs, and so on down to numbers that trial division
settles. The whole tree is one list, read from the small numbers to the large ones.
-/
namespace BitcoinKeys.Curve

def powMod (modulus base : Nat) : Nat → Nat → Nat
  | 0, _ => 1 % modulus
  | bits + 1, exponent =>
    let half := powMod modulus base bits (exponent / 2)
    if exponent % 2 = 1 then half * half * base % modulus else half * half % modulus

/-- The low bits of a number are its last bit and, twice, the low bits of its half. -/
theorem mod_two_pow_succ (n bits : Nat) :
    n % 2 ^ (bits + 1) = n / 2 % 2 ^ bits + n / 2 % 2 ^ bits + n % 2 := by
  rw [pow_succ', Nat.mod_mul]
  omega

/-- Squaring computes the power with the low bits of the exponent. -/
theorem powMod_eq (modulus base bits exponent : Nat) :
    powMod modulus base bits exponent = base ^ (exponent % 2 ^ bits) % modulus := by
  induction bits generalizing exponent with
  | zero => simp [powMod, Nat.mod_one]
  | succ bits ih =>
    simp only [powMod, ih, mod_two_pow_succ exponent]
    -- Only the last bit of the exponent decides whether the base is multiplied once more.
    rcases Nat.mod_two_eq_zero_or_one exponent with heven | hodd
    · rw [if_neg (by omega), heven, add_zero, pow_add, ← Nat.mul_mod]
    · rw [if_pos hodd, hodd, pow_succ, pow_add]
      simp [Nat.mul_mod]

/-- A power in the ring of residues is one if the remainder of the power is one. -/
theorem cast_pow_eq_one_iff {modulus : Nat} (hlarge : 1 < modulus) (base exponent : Nat) :
    (base : ZMod modulus) ^ exponent = 1 ↔ base ^ exponent % modulus = 1 := by
  rw [← Nat.cast_pow, ← Nat.cast_one, ZMod.natCast_eq_natCast_iff', Nat.mod_eq_of_lt hlarge]

def isSmallPrime (n : Nat) : Bool :=
  1 < n && n < 128 * 128 && (List.range 128).all fun d => d < 2 || n < d * d || n % d != 0

theorem prime_of_isSmallPrime {n : Nat} (hsmall : isSmallPrime n) : n.Prime := by
  simp only [isSmallPrime, Bool.and_eq_true, List.all_eq_true, List.mem_range, Bool.or_eq_true,
    decide_eq_true_eq, bne_iff_ne] at hsmall
  obtain ⟨⟨hlarge, hbound⟩, hindivisible⟩ := hsmall
  rw [Nat.prime_def_le_sqrt]
  refine ⟨hlarge, fun d htwoLe hleSqrt hdivides => ?_⟩
  have hsquareLe : d * d ≤ n := Nat.le_sqrt.mp hleSqrt
  have := hindivisible d (by nlinarith)
  have := Nat.mod_eq_zero_of_dvd hdivides
  omega

/-- A number, a generator of its nonzero residues, and the prime factors of its predecessor. -/
structure Certificate where
  number : Nat
  generator : Nat
  factors : List Nat

def Certificate.holds (certificate : Certificate) (known : List Nat) : Bool :=
  let ⟨number, generator, factors⟩ := certificate
  1 < number && number < 2 ^ 256 && factors.prod == number - 1 &&
    factors.all (fun q => isSmallPrime q || known.contains q) &&
    powMod number generator 256 (number - 1) == 1 &&
    factors.all fun q => powMod number generator 256 ((number - 1) / q) != 1

/-- Lucas's theorem: an element whose order is one less than the number. -/
theorem Certificate.prime_of_holds {certificate : Certificate} {known : List Nat}
    (hprimes : ∀ q ∈ known, q.Prime) (hholds : certificate.holds known) :
    certificate.number.Prime := by
  obtain ⟨number, generator, factors⟩ := certificate
  simp only [Certificate.holds, Bool.and_eq_true, decide_eq_true_eq, beq_iff_eq, bne_iff_ne,
    List.all_eq_true, Bool.or_eq_true, List.contains_iff_mem, powMod_eq] at hholds
  obtain ⟨⟨⟨⟨⟨hlarge, hbound⟩, hproduct⟩, hcertified⟩, hone⟩, hothers⟩ := hholds
  have hexact (n : Nat) (hle : n ≤ number - 1) : n % 2 ^ 256 = n := Nat.mod_eq_of_lt (by omega)
  have hfactorPrime (q : Nat) (hmem : q ∈ factors) : q.Prime :=
    (hcertified q hmem).elim prime_of_isSmallPrime (hprimes q)
  rw [hexact _ le_rfl] at hone
  apply lucas_primality number (generator : ZMod number)
  · exact (cast_pow_eq_one_iff hlarge _ _).mpr hone
  · intro q hqPrime hdivides
    -- A prime divisor of the product is one of its factors.
    rw [← hproduct] at hdivides
    have hmem : q ∈ factors :=
      mem_list_primes_of_dvd_prod hqPrime.prime (fun r hmem => (hfactorPrime r hmem).prime) hdivides
    have hother := hothers q hmem
    rw [hexact _ (Nat.div_le_self _ _)] at hother
    rwa [ne_eq, cast_pow_eq_one_iff hlarge]

def allHold (known : List Nat) : List Certificate → Bool
  | [] => true
  | certificate :: rest => certificate.holds known && allHold (certificate.number :: known) rest

/-- Induction over the list; each certificate may use the primes before it. -/
theorem prime_of_allHold {known : List Nat} {certificates : List Certificate}
    (hprimes : ∀ q ∈ known, q.Prime) (hall : allHold known certificates) :
    ∀ certificate ∈ certificates, certificate.number.Prime := by
  induction certificates generalizing known with
  | nil => simp
  | cons certificate rest ih =>
    simp only [allHold, Bool.and_eq_true] at hall
    have hprime := certificate.prime_of_holds hprimes hall.1
    rw [List.forall_mem_cons]
    exact ⟨hprime, ih (by simpa using ⟨hprime, hprimes⟩) hall.2⟩

/-- The tree of factors below the two primes of the curve, which are the last two entries. -/
def certificates : List Certificate :=
  [⟨16699, 3, [2, 3, 11, 11, 23]⟩,
   ⟨20113, 10, [2, 2, 2, 2, 3, 419]⟩,
   ⟨24809, 6, [2, 2, 2, 7, 443]⟩,
   ⟨28181, 2, [2, 2, 5, 1409]⟩,
   ⟨41201, 3, [2, 2, 2, 2, 5, 5, 103]⟩,
   ⟨85831, 3, [2, 3, 5, 2861]⟩,
   ⟨96557, 2, [2, 2, 101, 239]⟩,
   ⟨120233, 3, [2, 2, 2, 7, 19, 113]⟩,
   ⟨305873, 3, [2, 2, 2, 2, 7, 2731]⟩,
   ⟨1206781, 10, [2, 2, 3, 5, 20113]⟩,
   ⟨1627771, 3, [2, 3, 5, 29, 1871]⟩,
   ⟨4681609, 23, [2, 2, 2, 3, 97, 2011]⟩,
   ⟨7240687, 3, [2, 3, 1206781]⟩,
   ⟨13331831, 13, [2, 5, 971, 1373]⟩,
   ⟨44706919, 6, [2, 3, 797, 9349]⟩,
   ⟨107590001, 3, [2, 2, 2, 2, 5, 5, 5, 5, 7, 29, 53]⟩,
   ⟨545358713, 5, [2, 2, 2, 41, 59, 28181]⟩,
   ⟨297159362677, 2, [2, 2, 3, 3, 11, 461, 1627771]⟩,
   ⟨107361793816595537, 3, [2, 2, 2, 2, 16699, 85831, 4681609]⟩,
   ⟨173378833005251801, 6, [2, 2, 2, 5, 5, 2621, 24809, 13331831]⟩,
   ⟨174723607534414371449, 3, [2, 2, 2, 17, 59, 4051, 120233, 44706919]⟩,
   ⟨22149492674086928081353, 5, [2, 2, 2, 3, 5323, 173378833005251801]⟩,
   ⟨132896956044521568488119, 6, [2, 3, 22149492674086928081353]⟩,
   ⟨29047611873442575647497758179, 2, [2, 293, 305873, 545358713, 297159362677]⟩,
   ⟨341948486974166000522343609283189, 2, [2, 2, 3, 3, 3, 109, 29047611873442575647497758179]⟩,
   ⟨255515944373312847190720520512484175977, 3, [2, 2, 2, 7, 7, 11, 1627, 2657, 4423, 41201, 96557,
      7240687, 107590001]⟩,
   ⟨205115282021455665897114700593932402728804164701536103180137503955397371, 10, [2, 3, 5, 29, 29,
      31, 7723, 132896956044521568488119, 255515944373312847190720520512484175977]⟩,
   ⟨115792089237316195423570985008687907852837564279074904382605163141518161494337, 7, [2, 2, 2, 2,
      2, 2, 3, 149, 631, 107361793816595537, 174723607534414371449,
      341948486974166000522343609283189]⟩,
   ⟨115792089237316195423570985008687907853269984665640564039457584007908834671663, 3, [2, 3, 7,
      13441, 205115282021455665897114700593932402728804164701536103180137503955397371]⟩]

theorem prime_of_mem_certificates {n : Nat}
    (hcertified : n ∈ certificates.map Certificate.number) : n.Prime := by
  obtain ⟨certificate, hmem, rfl⟩ := List.mem_map.mp hcertified
  have hall : allHold [] certificates := by decide +kernel
  exact prime_of_allHold (by simp) hall certificate hmem

theorem prime_fieldPrime : fieldPrime.Prime := prime_of_mem_certificates (by decide +kernel)

theorem prime_order : order.Prime := prime_of_mem_certificates (by decide +kernel)

end BitcoinKeys.Curve
