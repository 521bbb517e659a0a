import BitcoinKeys.Base58.Alphabet
import BitcoinKeys.Base58.Fault
import BitcoinKeys.Hash
import BitcoinKeys.Text
import BitcoinKeys.VersionByte

/-!
Base58 and Base58Check. A leading zero byte is a leading '1'; the rest of the bytes is one big-endian
number written in base 58. Base58Check puts a checksum behind the bytes.
-/
namespace BitcoinKeys.Base58

def versioned (version : Option VersionByte) (payload : Bytes) : Bytes :=
  match version with
  | some version => version.toByte :: payload
  | none => payload

def pushByte (register : List Nat) (byte : UInt8) : List Nat :=
  Radix.mulAddGrow 58 256 register byte.toNat

def encodeBytes (bytes : Bytes) : String :=
  let zeros := bytes.takeWhile (· = 0)
  let register := (bytes.dropWhile (· = 0)).foldl pushByte []
  String.ofList (zeros.map (fun _ => '1') ++ register.reverse.map digit)

def encode (version : Option VersionByte) (payload : Bytes) : String :=
  encodeBytes (versioned version payload)

def checkEncode (version : Option VersionByte) (payload : Bytes) : String :=
  let bytes := versioned version payload
  encodeBytes (bytes ++ (Hash.checksum bytes).toBytes)

/-- The width in bytes of a register that holds any number of `length` base 58 digits: the ratio of
the logarithms of 58 and 256 is a little below 0.733. -/
def registerWidth (length : Nat) : Nat := length * 733 / 1000 + 1

def pushSymbol (register : List Nat) (symbol : Char) : Except Fault (List Nat) :=
  match digitValue? symbol with
  | some value => .ok (Radix.mulAdd 256 58 register value)
  | none => .error (.badCharacter symbol)

def registerBytes (register : List Nat) : Bytes :=
  (register.reverse.dropWhile (· = 0)).map UInt8.ofNat

/-- The bytes of a text of symbols, which may stand between blanks. A character that is no symbol is
reported before anything that follows the closing blanks. -/
def decode (text : String) : Except Fault Bytes := do
  let trimmed := text.toList.dropWhile Text.isBlank
  let word := trimmed.takeWhile (!Text.isBlank ·)
  let rest := trimmed.dropWhile (!Text.isBlank ·)
  let ones := word.takeWhile (· = '1')
  let symbols := word.dropWhile (· = '1')
  let width := registerWidth (Text.byteCount (symbols ++ rest))
  let register ← symbols.foldlM pushSymbol (List.replicate width 0)
  let after := rest.dropWhile Text.isBlank
  if after ≠ [] then
    .error (.characterAfterBlank (Text.byteLength text - Text.byteCount after))
  else .ok (ones.map (fun _ => 0) ++ registerBytes register)

def checksumHolds (text : String) : Except Fault Bool := do
  let bytes ← decode text
  if bytes.length < 4 then .error (.tooShort bytes.length)
  else
    return (Hash.checksum (bytes.take (bytes.length - 4))).toBytes = bytes.drop (bytes.length - 4)

def checkDecode (text : String) : Except Fault Bytes := do
  let bytes ← decode text
  if bytes.length < 4 then .error (.tooShort bytes.length)
  else
    let payloadLength := bytes.length - 4
    if (Hash.checksum (bytes.take payloadLength)).toBytes ≠ bytes.drop payloadLength then
      .error .badChecksum
    else .ok (bytes.take payloadLength)

end BitcoinKeys.Base58
