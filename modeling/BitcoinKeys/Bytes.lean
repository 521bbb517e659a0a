import BitcoinKeys.Radix

namespace BitcoinKeys

abbrev Bytes := List UInt8

namespace Bytes

def toNat (bytes : Bytes) : Nat := Radix.value 256 (bytes.map UInt8.toNat)

def ofNat (width n : Nat) : Bytes := (Radix.fixed 256 width n).map UInt8.ofNat

theorem length_ofNat (width n : Nat) : (ofNat width n).length = width := by
  induction width with
  | zero => rfl
  | succ width ih => simpa [ofNat, Radix.fixed] using ih

end Bytes
end BitcoinKeys
