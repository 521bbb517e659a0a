import BitcoinKeys.Error
import BitcoinKeys.Text

namespace BitcoinKeys.Hex

def digitValue (byte : UInt8) : Except Error Nat :=
  match digitValue? byte with
  | some value => .ok value
  | none => .error (.invalidFormat (.hexCharacter byte))

def decodePairs : Bytes → Except Error Bytes
  | high :: low :: rest => do
    let high ← digitValue high
    let low ← digitValue low
    let bytes ← decodePairs rest
    return UInt8.ofNat (16 * high + low) :: bytes
  | _ => .ok []

def decodeAscii (text : Bytes) : Except Error Bytes :=
  if text.length % 2 ≠ 0 then .error (.invalidFormat (.oddHexLength text.length))
  else decodePairs text

def decode (text : String) : Except Error Bytes := decodeAscii (Text.utf8 text)

end BitcoinKeys.Hex
