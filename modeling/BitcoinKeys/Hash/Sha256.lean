import BitcoinKeys.Bytes.Fixed
import BitcoinKeys.Hash.Block

namespace BitcoinKeys.Hash.Sha256

structure State where
  a : UInt32
  b : UInt32
  c : UInt32
  d : UInt32
  e : UInt32
  f : UInt32
  g : UInt32
  h : UInt32

def start : State :=
  ⟨0x6a09e667, 0xbb67ae85, 0x3c6ef372, 0xa54ff53a, 0x510e527f, 0x9b05688c, 0x1f83d9ab, 0x5be0cd19⟩

def roundConstants : Array UInt32 := #[
  0x428a2f98, 0x71374491, 0xb5c0fbcf, 0xe9b5dba5, 0x3956c25b, 0x59f111f1, 0x923f82a4, 0xab1c5ed5,
  0xd807aa98, 0x12835b01, 0x243185be, 0x550c7dc3, 0x72be5d74, 0x80deb1fe, 0x9bdc06a7, 0xc19bf174,
  0xe49b69c1, 0xefbe4786, 0x0fc19dc6, 0x240ca1cc, 0x2de92c6f, 0x4a7484aa, 0x5cb0a9dc, 0x76f988da,
  0x983e5152, 0xa831c66d, 0xb00327c8, 0xbf597fc7, 0xc6e00bf3, 0xd5a79147, 0x06ca6351, 0x14292967,
  0x27b70a85, 0x2e1b2138, 0x4d2c6dfc, 0x53380d13, 0x650a7354, 0x766a0abb, 0x81c2c92e, 0x92722c85,
  0xa2bfe8a1, 0xa81a664b, 0xc24b8b70, 0xc76c51a3, 0xd192e819, 0xd6990624, 0xf40e3585, 0x106aa070,
  0x19a4c116, 0x1e376c08, 0x2748774c, 0x34b0bcb5, 0x391c0cb3, 0x4ed8aa4a, 0x5b9cca4f, 0x682e6ff3,
  0x748f82ee, 0x78a5636f, 0x84c87814, 0x8cc70208, 0x90befffa, 0xa4506ceb, 0xbef9a3f7, 0xc67178f2]

def schedule (block : Array UInt32) : Array UInt32 :=
  Nat.fold 48 (fun i _ words =>
    let x := words.getD (i + 1) 0
    let y := words.getD (i + 14) 0
    let x' := rotateLeft x 25 ^^^ rotateLeft x 14 ^^^ x >>> 3
    let y' := rotateLeft y 15 ^^^ rotateLeft y 13 ^^^ y >>> 10
    words.push (words.getD i 0 + x' + words.getD (i + 9) 0 + y')) block

def round (s : State) (word : UInt32) : State :=
  let mixed := rotateLeft s.e 26 ^^^ rotateLeft s.e 21 ^^^ rotateLeft s.e 7
  let choice := s.e &&& s.f ^^^ ~~~s.e &&& s.g
  let t := s.h + mixed + choice + word
  let spread := rotateLeft s.a 30 ^^^ rotateLeft s.a 19 ^^^ rotateLeft s.a 10
  let majority := s.a &&& s.b ^^^ s.a &&& s.c ^^^ s.b &&& s.c
  ⟨t + (spread + majority), s.a, s.b, s.c, s.d + t, s.e, s.f, s.g⟩

def compress (s : State) (block : Array UInt32) : State :=
  let words := schedule block
  let r := Nat.fold 64 (fun i _ r => round r (roundConstants.getD i 0 + words.getD i 0)) s
  ⟨s.a + r.a, s.b + r.b, s.c + r.c, s.d + r.d, s.e + r.e, s.f + r.f, s.g + r.g, s.h + r.h⟩

def State.words (s : State) : List UInt32 := [s.a, s.b, s.c, s.d, s.e, s.f, s.g, s.h]

def digest (message : Bytes) : FixedBytes 32 :=
  let order := ByteOrder.bigEndian
  let final := absorb compress start (order.words (padded order message))
  ⟨order.ofWords final.words, by simp [length_ofWords, State.words]⟩

end BitcoinKeys.Hash.Sha256
