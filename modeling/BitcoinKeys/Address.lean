import BitcoinKeys.Bech32.Address
import BitcoinKeys.PublicKey

namespace BitcoinKeys

structure Address where
  key : PublicKey
  kind : AddressKind
  network : Network
deriving DecidableEq

namespace Address

def base58OfHash (hash : FixedBytes 20) (network : Network) : String :=
  Base58.checkEncode (some network.addressVersion) hash.toBytes

def bech32OfHash (hash : FixedBytes 20) (network : Network) : Except Error String :=
  match Bech32.encodeAddress hash.toBytes network with
  | .ok text => .ok text
  | .error fault => .error fault.toError

def ofHash160 (hash : FixedBytes 20) (kind : AddressKind) (network : Network) :
    Except Error String :=
  match kind with
  | .p2pkh => .ok (base58OfHash hash network)
  | .p2wpkh => bech32OfHash hash network

def p2pkh (key : PublicKey) (network : Network) : String := base58OfHash key.hash160 network

def p2wpkh (key : PublicKey) (network : Network) : Except Error String :=
  bech32OfHash key.hash160 network

def encode (address : Address) : Except Error String :=
  match address.kind with
  | .p2pkh => .ok (p2pkh address.key address.network)
  | .p2wpkh => p2wpkh address.key address.network

def isVersionedHash (payload : Bytes) : Bool :=
  payload.length = 21
    && (payload.headD 0 = Network.bitcoin.addressVersion.toByte
      || payload.headD 0 = Network.testnet.addressVersion.toByte)

def isValid (text : String) : Bool :=
  (Bech32.decodeAddress text).toBool
    || match Base58.checkDecode text with
      | .ok payload => isVersionedHash payload
      | .error _ => false

def ofPrivateKey (key : PrivateKey) (kind : AddressKind) (network : Network) :
    Except Error String := do
  let key ← PublicKey.derive key
  encode ⟨key, kind, network⟩

def ofWif (text : String) (kind : AddressKind) : Except Error String := do
  let (key, network) ← Wif.decode text
  ofPrivateKey key kind network

def ofPhrase (phrase : String) (kind : AddressKind) (network : Network) : Except Error String :=
  ofPrivateKey (PrivateKey.ofPhrase phrase) kind network

end Address
end BitcoinKeys
