import BitcoinKeys.Base58.Alphabet
import BitcoinKeys.Bech32.Charset
import BitcoinKeys.Error
import BitcoinKeys.Text

namespace BitcoinKeys

def AddressKind.patternOffset : AddressKind → Nat
  | .p2pkh => 1
  | .p2wpkh => 4

def AddressKind.patternMax : AddressKind → Nat
  | .p2pkh => 33
  | .p2wpkh => 38

def AddressKind.isSymbol : AddressKind → Char → Bool
  | .p2pkh, character => Base58.isSymbol character
  | .p2wpkh, character => (Bech32.symbol? character).isSome

namespace Vanity

structure Pattern where
  symbols : List Char
  kind : AddressKind
  nonempty : symbols ≠ []
  length_le : symbols.length ≤ kind.patternMax
  all_symbols : symbols.all kind.isSymbol = true
deriving DecidableEq

def slice? (start length : Nat) (text : List Char) : Option (List Char) := do
  let (_, rest) ← Text.splitAtByte? start text
  let (slice, _) ← Text.splitAtByte? length rest
  return slice

namespace Pattern

def ofText (text : String) (kind : AddressKind) : Except Error Pattern :=
  let symbols := text.toList
  if hnonempty : symbols = [] then .error (.invalidFormat .emptyPattern)
  else if hlengthLe : symbols.length ≤ kind.patternMax then
    match hknown : symbols.find? (!kind.isSymbol ·) with
    | some character => .error (.invalidFormat (.patternCharacter character kind))
    | none =>
      .ok ⟨symbols, kind, hnonempty, hlengthLe, by simpa [List.find?_eq_none] using hknown⟩
  else .error (.invalidFormat (.patternTooLong symbols.length kind))

def offset (pattern : Pattern) : Nat := pattern.kind.patternOffset

def isIn (pattern : Pattern) (address : String) : Bool :=
  match slice? pattern.offset (Text.byteCount pattern.symbols) address.toList with
  | some slice => slice.map Char.toLower = pattern.symbols.map Char.toLower
  | none => false

/-- About how many keys there are to one whose address has the pattern: a letter stands for two of
58 symbols, any other character for one. -/
def permutations (pattern : Pattern) : Float :=
  pattern.symbols.foldl (fun total symbol => total * (if symbol.isAlpha then 29.0 else 58.0)) 1.0

end Pattern
end Vanity
end BitcoinKeys
