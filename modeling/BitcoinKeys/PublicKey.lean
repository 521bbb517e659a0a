import BitcoinKeys.Curve.Multiple
import BitcoinKeys.KeyGuess

namespace BitcoinKeys

structure PublicKey where
  point : Curve.Point
  compressed : Bool
deriving DecidableEq

namespace PublicKey

def derive (key : PrivateKey) : Except Error PublicKey :=
  let scalar := key.scalar.toNat
  match if Curve.isScalar scalar then Curve.Point.generator.multiple? scalar else none with
  | some point => .ok ⟨point, key.compressed⟩
  | none => .error (.invalidFormat .scalarRange)

def coordinateBytes (coordinate : Curve.Coordinate) : Bytes := Bytes.ofNat 32 coordinate.val

def toBytes (key : PublicKey) : Bytes :=
  if key.compressed then (if key.point.y.isOdd then 3 else 2) :: coordinateBytes key.point.x
  else 4 :: (coordinateBytes key.point.x ++ coordinateBytes key.point.y)

def toHex (key : PublicKey) : String := Hex.encode key.toBytes

def shortPoint? (odd : Bool) (x : Bytes) : Option Curve.Point := do
  let x ← Curve.Coordinate.ofNat? x.toNat
  Curve.Point.ofX? x odd

def longPoint? (x y : Bytes) : Option Curve.Point := do
  let x ← Curve.Coordinate.ofNat? x.toNat
  let y ← Curve.Coordinate.ofNat? y.toNat
  Curve.Point.ofCoordinates? x y

def ofPoint? (point : Option Curve.Point) (compressed : Bool) : Except Error PublicKey :=
  match point with
  | some point => .ok ⟨point, compressed⟩
  | none => .error (.invalidFormat .malformedPoint)

def ofBytes (bytes : Bytes) : Except Error PublicKey :=
  let form := bytes.headD 0
  let rest := bytes.drop 1
  if bytes.length = 33 ∧ (form = 2 ∨ form = 3) then ofPoint? (shortPoint? (form = 3) rest) true
  else if bytes.length = 65 ∧ form = 4 then
    ofPoint? (longPoint? (rest.take 32) (rest.drop 32)) false
  else .error (.invalidFormat (.pointForm bytes.length))

def ofHexAscii (text : Bytes) : Except Error PublicKey := do
  let bytes ← Hex.decodeAscii text
  ofBytes bytes

def ofHex (text : String) : Except Error PublicKey := ofHexAscii (Text.utf8 text)

def isCertainFormat : KeyFormat → Bool
  | .decimal | .hex | .wif => true
  | .phrase | .raw => false

/-- The public key of data in an unknown format. A decimal, hex or wallet import private key comes
first, then a serialized point in hex, then the private keys that almost any data could be. -/
def guess (data : Bytes) : Except Error PublicKey :=
  let guessed := KeyGuess.ofData data
  let otherwise :=
    match ofHexAscii (Text.dropFinalNewline data) with
    | .ok key => .ok key
    | .error _ => do
      let found ← guessed
      derive found.key
  match guessed with
  | .ok found => if isCertainFormat found.format then derive found.key else otherwise
  | .error _ => otherwise

def hash160 (key : PublicKey) : FixedBytes 20 := Hash.hash160 key.toBytes

end PublicKey
end BitcoinKeys
