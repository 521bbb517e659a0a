namespace BitcoinKeys

inductive AddressKind where
  | p2pkh
  | p2wpkh
deriving DecidableEq, Repr

def AddressKind.name : AddressKind → String
  | .p2pkh => "p2pkh"
  | .p2wpkh => "p2wpkh"

end BitcoinKeys
