import BitcoinKeys.Curve.Point
import BitcoinKeys.Decimal
import BitcoinKeys.Hash
import BitcoinKeys.Hex

/-!
Private keys: a scalar of 32 bytes and the flag that decides how the public key is serialized. Any 32
bytes make a private key; only a scalar between zero and the curve order has a public key.
-/
namespace BitcoinKeys

structure PrivateKey where
  scalar : FixedBytes 32
  compressed : Bool
deriving DecidableEq

namespace PrivateKey

def compressedMarker : UInt8 := 0x01

def uncompressedMarker : UInt8 := 0x00

def ofScalar (scalar : Bytes) (compressed : Bool) : Except Error PrivateKey :=
  (FixedBytes.ofBytes 32 scalar).map (⟨·, compressed⟩)

def ofHexBytes (bytes : Bytes) : Except Error PrivateKey :=
  let marker := bytes.getD 32 0
  if bytes.length = 32 then ofScalar bytes false
  else if bytes.length = 33 then
    if marker = compressedMarker then ofScalar (bytes.take 32) true
    else .error (.invalidFormat (.hexCompressionMarker marker))
  else .error (.invalidFormat (.hexKeyLength (bytes.length * 2)))

def ofHex (text : String) : Except Error PrivateKey := do
  let bytes ← Hex.decode text
  ofHexBytes bytes

def ofRaw (bytes : Bytes) : Except Error PrivateKey :=
  let marker := bytes.getD 32 0
  if bytes.length = 32 then ofScalar bytes false
  else if bytes.length = 33 then
    if marker = compressedMarker then ofScalar (bytes.take 32) true
    else if marker = uncompressedMarker then ofScalar (bytes.take 32) false
    else .error (.invalidFormat (.rawCompressionFlag marker))
  else .error (.invalidFormat (.rawLength bytes.length))

def ofDecimal (text : String) : Except Error PrivateKey :=
  (Decimal.decode 32 text).map (⟨·, true⟩)

def ofData (data : Bytes) : PrivateKey := ⟨Hash.sha256 data, true⟩

def ofPhrase (phrase : String) : PrivateKey := ofData (Text.utf8 phrase)

def toRaw (key : PrivateKey) : Bytes :=
  if key.compressed then key.scalar.toBytes ++ [compressedMarker] else key.scalar.toBytes

def toHex (key : PrivateKey) : String := Hex.encode key.toRaw

def toDecimal (key : PrivateKey) : String := Decimal.encode key.scalar.toBytes

def isZero (key : PrivateKey) : Bool := key.scalar.toBytes.all (· = 0)

def compress (key : PrivateKey) : PrivateKey := { key with compressed := true }

def uncompress (key : PrivateKey) : PrivateKey := { key with compressed := false }

def rehash (key : PrivateKey) : PrivateKey :=
  { key with scalar := Hash.sha256 key.scalar.toBytes }

def rehashes (key : PrivateKey) : Nat → PrivateKey
  | 0 => key
  | count + 1 => rehashes key.rehash count

end PrivateKey
end BitcoinKeys
