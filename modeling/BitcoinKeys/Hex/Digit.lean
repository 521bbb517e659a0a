import BitcoinKeys.Bytes

namespace BitcoinKeys.Hex

def digitValue? (byte : UInt8) : Option Nat :=
  if 48 ≤ byte ∧ byte ≤ 57 then some (byte.toNat - 48)
  else if 97 ≤ byte ∧ byte ≤ 102 then some (byte.toNat - 97 + 10)
  else if 65 ≤ byte ∧ byte ≤ 70 then some (byte.toNat - 65 + 10)
  else none

def isDigit (byte : UInt8) : Bool := (digitValue? byte).isSome

def digit (value : Nat) : Char := Char.ofNat (if value < 10 then 48 + value else 87 + value)

def byteDigits (byte : UInt8) : List Char := [digit (byte.toNat / 16), digit (byte.toNat % 16)]

def encode (bytes : Bytes) : String := String.ofList (bytes.flatMap byteDigits)

end BitcoinKeys.Hex
