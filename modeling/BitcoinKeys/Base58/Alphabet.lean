import BitcoinKeys.Bytes

namespace BitcoinKeys.Base58

def alphabet : List Char := [
  '1', '2', '3', '4', '5', '6', '7', '8', '9', 'A', 'B', 'C', 'D', 'E', 'F', 'G', 'H', 'J', 'K', 'L',
  'M', 'N', 'P', 'Q', 'R', 'S', 'T', 'U', 'V', 'W', 'X', 'Y', 'Z', 'a', 'b', 'c', 'd', 'e', 'f', 'g',
  'h', 'i', 'j', 'k', 'm', 'n', 'o', 'p', 'q', 'r', 's', 't', 'u', 'v', 'w', 'x', 'y', 'z']

def digitValue? (symbol : Char) : Option Nat := alphabet.idxOf? symbol

def digit (value : Nat) : Char := alphabet.getD value '1'

def isSymbol (character : Char) : Bool := alphabet.contains character

def isSymbolByte (byte : UInt8) : Bool := isSymbol (Char.ofUInt8 byte)

end BitcoinKeys.Base58
