import BitcoinKeys.Error

namespace BitcoinKeys.Bech32

inductive Fault where
  | invalidCharacter (character : Char)
  | mixedCase
  | missingSeparator
  | badChecksum
  | invalidData
  /-- A text of too many bytes, or a witness program that has not twenty. -/
  | invalidLength (length : Nat)
  | invalidVersion (version : Nat)
  | unknownHumanReadablePart (part : String)
deriving DecidableEq, Repr

def Fault.toError : Fault → Error
  | .invalidCharacter character => .invalidFormat (.bech32Character character)
  | .mixedCase => .invalidFormat .mixedCase
  | .missingSeparator => .invalidFormat .missingSeparator
  | .badChecksum => .checksumMismatch
  | .invalidData => .invalidFormat .bech32Data
  | .invalidLength length => .unsupportedEncoding (.witnessProgram length)
  | .invalidVersion version => .unsupportedEncoding (.witnessVersion version)
  | .unknownHumanReadablePart part => .invalidFormat (.unknownHumanReadablePart part)

end BitcoinKeys.Bech32
