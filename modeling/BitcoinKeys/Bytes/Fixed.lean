import BitcoinKeys.Error

namespace BitcoinKeys

structure FixedBytes (width : Nat) where
  toBytes : Bytes
  length_eq : toBytes.length = width
deriving DecidableEq

namespace FixedBytes

def toNat {width : Nat} (bytes : FixedBytes width) : Nat := bytes.toBytes.toNat

def ofNat (width n : Nat) : FixedBytes width := ⟨Bytes.ofNat width n, Bytes.length_ofNat width n⟩

def ofBytes (width : Nat) (bytes : Bytes) : Except Error (FixedBytes width) :=
  if h : bytes.length = width then .ok ⟨bytes, h⟩
  else .error (.invalidFormat (.byteCount width bytes.length))

def take {width : Nat} (bytes : Bytes) (h : width ≤ bytes.length) : FixedBytes width :=
  ⟨bytes.take width, by simp [h]⟩

end FixedBytes
end BitcoinKeys
