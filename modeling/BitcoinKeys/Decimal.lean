import BitcoinKeys.Bytes.Fixed

namespace BitcoinKeys.Decimal

def digitValue (digit : Char) : Nat := digit.toNat - 48

def digit (value : Nat) : Char := Char.ofNat (48 + value)

def byteWidth (n : Nat) : Nat := max 1 (Radix.leastFirst 256 n).length

def decode (width : Nat) (text : String) : Except Error (FixedBytes width) :=
  let digits := text.toList
  if digits = [] ∨ ¬ digits.all Char.isDigit then .error (.invalidFormat .decimalSyntax)
  else
    let n := Radix.value 10 (digits.map digitValue)
    if width < byteWidth n then .error (.invalidFormat (.decimalTooWide width))
    else .ok (FixedBytes.ofNat width n)

def encode (bytes : Bytes) : String :=
  let n := bytes.toNat
  if n = 0 then "0" else String.ofList ((Radix.digits 10 n).map digit)

end BitcoinKeys.Decimal
