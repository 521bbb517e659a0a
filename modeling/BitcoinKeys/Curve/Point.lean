import BitcoinKeys.Curve.Coordinate

namespace BitcoinKeys.Curve

def order : Nat := 0xfffffffffffffffffffffffffffffffebaaedce6af48a03bbfd25e8cd0364141

def isScalar (n : Nat) : Bool := 0 < n && n < order

def cubic (x : Coordinate) : Coordinate := x * x * x + 7

structure Point where
  x : Coordinate
  y : Coordinate
  on_curve : y * y = cubic x
deriving DecidableEq

namespace Point

def ofCoordinates? (x y : Coordinate) : Option Point :=
  if h : y * y = cubic x then some ⟨x, y, h⟩ else none

def ofX? (x : Coordinate) (odd : Bool) : Option Point :=
  let root := (cubic x).sqrtCandidate
  ofCoordinates? x (if root.isOdd = odd then root else -root)

def generator : Point where
  x := ⟨0x79be667ef9dcbbac55a06295ce870b07029bfcdb2dce28d959f2815b16f81798, by decide⟩
  y := ⟨0x483ada7726a3c4655da4fbfc0e1108a8fd17b448a68554199c47d08ffb10d4b8, by decide⟩
  on_curve := by decide +kernel

end Point
end BitcoinKeys.Curve
