import BitcoinKeys.Wif

/-!
Finding the format of a private key. The rules are tried in a fixed order and the first that matches
decides: a text that matches a rule and is then refused by it goes to no later rule.
-/
namespace BitcoinKeys

inductive KeyFormat where
  | decimal
  | hex
  | wif
  | phrase
  | raw
deriving DecidableEq, Repr

def KeyFormat.name : KeyFormat → String
  | .decimal => "decimal"
  | .hex => "hex"
  | .wif => "wif"
  | .phrase => "string"
  | .raw => "raw"

structure KeyGuess where
  key : PrivateKey
  format : KeyFormat
  network : Option Network
deriving DecidableEq

namespace KeyGuess

def isDecimal (text : Bytes) : Bool := text ≠ [] && text.all fun byte => 48 ≤ byte && byte ≤ 57

def isHex (text : Bytes) : Bool := (text.length = 64 || text.length = 66) && text.all Hex.isDigit

def isWif (text : Bytes) : Bool :=
  (51 ≤ text.length && text.length ≤ 52) && text.all Base58.isSymbolByte
    && (Wif.decode (Text.ofAscii text)).toBool

def isPhrase (text : Bytes) : Bool := text ≠ [] && text.all fun byte => 0 < byte && byte < 128

def isRaw (data : Bytes) : Bool := data.length = 32 || (data.length = 33 && data.getD 32 0 ≤ 1)

/-- The format of the first rule that matches. All but the last disregard a line feed at the end. -/
def classify (data : Bytes) : Option KeyFormat :=
  let text := Text.dropFinalNewline data
  if isDecimal text then some .decimal
  else if isHex text then some .hex
  else if isWif text then some .wif
  else if isPhrase text then some .phrase
  else if isRaw data then some .raw
  else none

def read (format : KeyFormat) (data : Bytes) : Except Error KeyGuess :=
  let text := Text.dropFinalNewline data
  match format with
  | .decimal => (PrivateKey.ofDecimal (Text.ofAscii text)).map (⟨·, .decimal, none⟩)
  | .hex => (PrivateKey.ofHex (Text.ofAscii text)).map (⟨·, .hex, none⟩)
  | .wif => (Wif.decode (Text.ofAscii text)).map fun (key, network) => ⟨key, .wif, some network⟩
  | .phrase => .ok ⟨PrivateKey.ofData text, .phrase, none⟩
  | .raw => (PrivateKey.ofRaw data).map (⟨·, .raw, none⟩)

def ofData (data : Bytes) : Except Error KeyGuess :=
  match classify data with
  | some format => read format data
  | none => .error (.invalidFormat .noKeyFormat)

end KeyGuess
end BitcoinKeys
