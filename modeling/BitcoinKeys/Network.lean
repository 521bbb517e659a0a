import BitcoinKeys.Error
import BitcoinKeys.Text
import BitcoinKeys.VersionByte

namespace BitcoinKeys

inductive Network where
  | bitcoin
  | testnet
deriving DecidableEq, Repr, Inhabited

namespace Network

def name : Network → String
  | .bitcoin => "bitcoin"
  | .testnet => "testnet"

def addressVersion : Network → VersionByte
  | .bitcoin => .address
  | .testnet => .testnetAddress

def wifVersion : Network → VersionByte
  | .bitcoin => .wif
  | .testnet => .testnetWif

def humanReadablePart : Network → String
  | .bitcoin => "bc"
  | .testnet => "tb"

def ofWifVersion? (byte : UInt8) : Option Network :=
  match VersionByte.ofNat? byte.toNat with
  | some .wif => some .bitcoin
  | some .testnetWif => some .testnet
  | _ => none

def ofHumanReadablePart? (part : String) : Option Network :=
  if part = "bc" then some .bitcoin else if part = "tb" then some .testnet else none

/-- The network with the given name in any case. No letter outside ASCII has a lower case form
that occurs in these names, so folding the ASCII letters decides. -/
def parse (text : String) : Except Error Network :=
  let name := Text.lower text
  if name = "bitcoin" ∨ name = "mainnet" ∨ name = "main" then .ok .bitcoin
  else if name = "testnet" ∨ name = "test" then .ok .testnet
  else .error (.invalidFormat (.unknownNetwork text))

end Network
end BitcoinKeys
