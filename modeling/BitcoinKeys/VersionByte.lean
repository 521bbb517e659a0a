import BitcoinKeys.Bytes

namespace BitcoinKeys

inductive VersionByte where
  | address
  | testnetAddress
  | wif
  | testnetWif
deriving DecidableEq, Repr

namespace VersionByte

def toByte : VersionByte → UInt8
  | .address => 0x00
  | .testnetAddress => 0x6f
  | .wif => 0x80
  | .testnetWif => 0xef

def ofNat? : Nat → Option VersionByte
  | 0x00 => some .address
  | 0x6f => some .testnetAddress
  | 0x80 => some .wif
  | 0xef => some .testnetWif
  | _ => none

end VersionByte
end BitcoinKeys
