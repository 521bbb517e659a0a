import BitcoinKeys.Error

namespace BitcoinKeys.Base58

inductive Fault where
  /-- The first character that is no symbol. -/
  | badCharacter (character : Char)
  /-- Something follows the blanks that should end the text, at this byte position. -/
  | characterAfterBlank (position : Nat)
  /-- So few bytes have no room for a checksum. -/
  | tooShort (length : Nat)
  | badChecksum
deriving DecidableEq, Repr

def Fault.toError : Fault → Error
  | .badCharacter character => .invalidFormat (.base58Character character)
  | .characterAfterBlank position => .invalidFormat (.characterAfterBlank position)
  | .tooShort length => .invalidFormat (.checkPayloadTooShort length)
  | .badChecksum => .checksumMismatch

end BitcoinKeys.Base58
