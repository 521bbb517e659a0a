/-!
The prime field that the coordinates of curve points live in. Numbers below the prime are added and
multiplied modulo the prime; inverses and square roots are powers.
-/
namespace BitcoinKeys.Curve

def fieldPrime : Nat := 0xfffffffffffffffffffffffffffffffffffffffffffffffffffffffefffffc2f

-- The zero is that of the core library, whatever else is imported.
instance : @NeZero Nat Zero.ofOfNat0 fieldPrime := ⟨by decide⟩

abbrev Coordinate := Fin fieldPrime

namespace Coordinate

def ofNat? (n : Nat) : Option Coordinate := if h : n < fieldPrime then some ⟨n, h⟩ else none

def powBits (base : Coordinate) : Nat → Nat → Coordinate
  | 0, _ => 1
  | bits + 1, exponent =>
    let half := powBits base bits (exponent / 2)
    if exponent % 2 = 1 then half * half * base else half * half

def pow (base : Coordinate) (exponent : Nat) : Coordinate := powBits base 256 exponent

/-- The inverse of a coordinate other than zero: the power that multiplies with it to the power
`fieldPrime - 1`, which is one. Zero goes to zero. -/
def inverse (a : Coordinate) : Coordinate := pow a (fieldPrime - 2)

/-- A square root of every coordinate that has one, because the prime is three modulo four. -/
def sqrtCandidate (a : Coordinate) : Coordinate := pow a ((fieldPrime + 1) / 4)

def isOdd (a : Coordinate) : Bool := a.val % 2 = 1

end Coordinate
end BitcoinKeys.Curve
