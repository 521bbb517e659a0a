import BitcoinKeys.Hash.Ripemd160
import BitcoinKeys.Hash.Sha256

namespace BitcoinKeys.Hash

def sha256 (message : Bytes) : FixedBytes 32 := Sha256.digest message

def ripemd160 (message : Bytes) : FixedBytes 20 := Ripemd160.digest message

def sha256d (message : Bytes) : FixedBytes 32 := sha256 (sha256 message).toBytes

def hash160 (message : Bytes) : FixedBytes 20 := ripemd160 (sha256 message).toBytes

def checksum (message : Bytes) : FixedBytes 4 :=
  let digest := sha256d message
  FixedBytes.take digest.toBytes (by simp [digest.length_eq])

end BitcoinKeys.Hash
