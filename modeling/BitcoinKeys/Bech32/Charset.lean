namespace BitcoinKeys.Bech32

abbrev Symbol := BitVec 5

def charset : List Char := [
  'q', 'p', 'z', 'r', 'y', '9', 'x', '8', 'g', 'f', '2', 't', 'v', 'd', 'w', '0',
  's', '3', 'j', 'n', '5', '4', 'k', 'h', 'c', 'e', '6', 'm', 'u', 'a', '7', 'l']

def symbol? (character : Char) : Option Symbol :=
  (charset.idxOf? character.toLower).map (BitVec.ofNat 5)

def Symbol.char (symbol : Symbol) : Char := charset.getD symbol.toNat 'q'

end BitcoinKeys.Bech32
