import BitcoinKeys.Curve.Point

/-!
Multiples of a point by doubling and adding. The chain runs in Jacobian coordinates, where neither
step divides, and goes back to plain coordinates once at its end.
-/
namespace BitcoinKeys.Curve

/-- Stands for the point (x / z², y / z³), and for the point at infinity where `z` is zero. -/
structure Jacobian where
  x : Coordinate
  y : Coordinate
  z : Coordinate
deriving DecidableEq

namespace Jacobian

def infinity : Jacobian := ⟨1, 1, 0⟩

def ofPoint (p : Point) : Jacobian := ⟨p.x, p.y, 1⟩

/-- Twice a point. No point of the curve has `y = 0`, so only infinity doubles to infinity. -/
def double (p : Jacobian) : Jacobian :=
  let y2 := p.y * p.y
  let s := 4 * p.x * y2
  let m := 3 * (p.x * p.x)
  let x := m * m - (s + s)
  ⟨x, m * (s - x) - 8 * (y2 * y2), 2 * p.y * p.z⟩

/-- The sum with a point in plain coordinates. Equal and opposite points are told apart first,
because the chord through them is no line between two points. -/
def addPoint (p : Jacobian) (q : Point) : Jacobian :=
  if p.z = 0 then ofPoint q
  else
    let z2 := p.z * p.z
    let h := q.x * z2 - p.x
    let r := q.y * (z2 * p.z) - p.y
    if h = 0 then (if r = 0 then double p else infinity)
    else
      let h2 := h * h
      let h3 := h2 * h
      let v := p.x * h2
      let x := r * r - h3 - (v + v)
      ⟨x, r * (v - x) - p.y * h3, p.z * h⟩

def toPoint? (p : Jacobian) : Option Point :=
  if p.z = 0 then none
  else
    let i := p.z.inverse
    let i2 := i * i
    Point.ofCoordinates? (p.x * i2) (p.y * (i2 * i))

end Jacobian

def Point.multipleBits (p : Point) : Nat → Nat → Jacobian
  | 0, _ => .infinity
  | bits + 1, n =>
    let twice := (multipleBits p bits (n / 2)).double
    if n % 2 = 1 then twice.addPoint p else twice

def Point.multiple? (p : Point) (n : Nat) : Option Point := (p.multipleBits 256 n).toPoint?

end BitcoinKeys.Curve
