import BitcoinKeys.Base58
import BitcoinKeys.Network
import BitcoinKeys.PrivateKey

namespace BitcoinKeys.Wif

def encode (key : PrivateKey) (network : Network) : String :=
  Base58.checkEncode (some network.wifVersion) key.toRaw

def readFlag (payload : Bytes) : Except Error Bool :=
  if payload.length = 33 then .ok false
  else if payload.length = 34 then
    let flag := payload.getD 33 0
    if flag = PrivateKey.compressedMarker then .ok true
    else .error (.invalidFormat (.wifCompressionFlag flag))
  else .error (.invalidFormat (.wifLength payload.length))

def readNetwork (version : UInt8) : Except Error Network :=
  match Network.ofWifVersion? version with
  | some network => .ok network
  | none => .error (.invalidFormat (.wifVersion version))

def ofPayload (payload : Bytes) : Except Error (PrivateKey × Network) := do
  let compressed ← readFlag payload
  let network ← readNetwork (payload.headD 0)
  let key ← PrivateKey.ofScalar ((payload.drop 1).take 32) compressed
  return (key, network)

def decode (text : String) : Except Error (PrivateKey × Network) :=
  match Base58.checkDecode text with
  | .ok payload => ofPayload payload
  | .error fault => .error fault.toError

end BitcoinKeys.Wif
