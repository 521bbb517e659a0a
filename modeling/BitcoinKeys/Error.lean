import BitcoinKeys.AddressKind
import BitcoinKeys.Hex.Digit

/-!
Why a text, a byte string or a key is refused. Faults are causes; their wording is in one place,
so the rest of the library never compares texts.
-/
namespace BitcoinKeys

inductive FormatFault where
  /-- A fault in the caller's own words. -/
  | described (text : String)
  | oddHexLength (length : Nat)
  /-- A byte that is no hexadecimal digit. -/
  | hexCharacter (byte : UInt8)
  | byteCount (expected found : Nat)
  | unknownNetwork (name : String)
  | base58Character (character : Char)
  /-- A character at this byte position follows blanks that should end the text. -/
  | characterAfterBlank (position : Nat)
  | checkPayloadTooShort (length : Nat)
  | bech32Character (character : Char)
  | mixedCase
  | missingSeparator
  | bech32Data
  | unknownHumanReadablePart (part : String)
  | decimalSyntax
  | decimalTooWide (width : Nat)
  /-- The byte behind a scalar written in hex is no compression marker. -/
  | hexCompressionMarker (byte : UInt8)
  | hexKeyLength (characters : Nat)
  | wifCompressionFlag (byte : UInt8)
  | wifLength (length : Nat)
  | wifVersion (byte : UInt8)
  | rawCompressionFlag (byte : UInt8)
  | rawLength (length : Nat)
  /-- The scalar is zero or not below the order of the curve. -/
  | scalarRange
  /-- Neither the length nor the first byte belong to a serialized point. -/
  | pointForm (length : Nat)
  /-- The coordinates are out of range or off the curve. -/
  | malformedPoint
  | noKeyFormat
  | emptyPattern
  | patternTooLong (characters : Nat) (kind : AddressKind)
  | patternCharacter (character : Char) (kind : AddressKind)
  | duplicateWildcard
  | negativeDepth (entry : String)
  | depthCharacter (character : Char)
  /-- An entry that is empty or does not fit in 64 bits. -/
  | depthEntry (entry : String)
  | duplicateDepth (depth : Nat)
deriving DecidableEq, Repr

inductive Unsupported where
  /-- A feature in the caller's own words. -/
  | described (text : String)
  | witnessProgram (length : Nat)
  | witnessVersion (version : Nat)
deriving DecidableEq, Repr

inductive Error where
  | invalidFormat (fault : FormatFault)
  | checksumMismatch
  | unsupportedEncoding (what : Unsupported)
  /-- The workers of a parallel search could not be started. -/
  | workerPool (reason : String)
deriving DecidableEq, Repr

def AddressKind.alphabetName : AddressKind → String
  | .p2pkh => "base58"
  | .p2wpkh => "bech32"

/-- The wording of a fault. A byte that stands for a character is shown as the character of that
code point. -/
def FormatFault.message : FormatFault → String
  | .described text => text
  | .oddHexLength length => s!"odd hex length {length}"
  | .hexCharacter byte => s!"invalid hex character '{Char.ofUInt8 byte}'"
  | .byteCount expected found => s!"expected {expected} bytes, found {found}"
  | .unknownNetwork name => s!"unknown network '{name}'"
  | .base58Character character => s!"invalid base58 character '{character}'"
  | .characterAfterBlank position => s!"unexpected character after whitespace at {position}"
  | .checkPayloadTooShort length => s!"base58check payload too short ({length} bytes)"
  | .bech32Character character => s!"invalid bech32 character '{character}'"
  | .mixedCase => "bech32 string mixes upper and lower case"
  | .missingSeparator => "bech32 string has no separator"
  | .bech32Data => "malformed bech32 data"
  | .unknownHumanReadablePart part => s!"unknown human readable part '{part}'"
  | .decimalSyntax => "decimal input must be a non-empty string of digits"
  | .decimalTooWide width => s!"decimal value exceeds {width} bytes"
  | .hexCompressionMarker byte => s!"unexpected compression marker {Hex.encode [byte]}"
  | .hexKeyLength characters => s!"hex key must be 64 or 66 characters, found {characters}"
  | .wifCompressionFlag byte => s!"unexpected WIF compression flag {Hex.encode [byte]}"
  | .wifLength length => s!"WIF payload must be 33 or 34 bytes, found {length}"
  | .wifVersion byte => s!"unknown WIF prefix {Hex.encode [byte]}"
  | .rawCompressionFlag byte => s!"unexpected compression flag {Hex.encode [byte]}"
  | .rawLength length => s!"raw key must be 32 or 33 bytes, found {length}"
  | .scalarRange => "private key scalar is zero or not below the curve order"
  | .pointForm length => s!"not a serialized public key ({length} bytes)"
  | .malformedPoint => "secp: malformed public key"
  | .noKeyFormat => "input does not match any private key format"
  | .emptyPattern => "vanity pattern cannot be empty"
  | .patternTooLong characters kind =>
    s!"vanity pattern of {characters} characters cannot fit in a {kind.name} address"
  | .patternCharacter character kind =>
    s!"'{character}' is not a {kind.alphabetName} character"
  | .duplicateWildcard => "schedule cannot contain duplicate wildcards"
  | .negativeDepth entry => s!"schedule cannot contain a negative number: {entry}"
  | .depthCharacter character => s!"schedule contains unexpected character: {character}"
  | .depthEntry entry => s!"invalid schedule entry '{entry}'"
  | .duplicateDepth depth => s!"schedule cannot contain duplicate numbers: {depth}"

def Unsupported.message : Unsupported → String
  | .described text => text
  | .witnessProgram length => s!"witness program of {length} bytes"
  | .witnessVersion version => s!"witness version {version}"

def Error.message : Error → String
  | .invalidFormat fault => s!"invalid format: {fault.message}"
  | .checksumMismatch => "checksum mismatch"
  | .unsupportedEncoding what => s!"unsupported encoding: {what.message}"
  | .workerPool reason => s!"worker pool: {reason}"

end BitcoinKeys
