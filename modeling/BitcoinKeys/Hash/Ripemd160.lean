import BitcoinKeys.Bytes.Fixed
import BitcoinKeys.Hash.Block

namespace BitcoinKeys.Hash.Ripemd160

structure State where
  a : UInt32
  b : UInt32
  c : UInt32
  d : UInt32
  e : UInt32

def start : State := ⟨0x67452301, 0xefcdab89, 0x98badcfe, 0x10325476, 0xc3d2e1f0⟩

/-- What the two lines of rounds differ in: for each of the 80 rounds the word of the block and
the turn, and for each sixteen rounds the constant and the mixing function. -/
structure Line where
  wordIndex : Array Nat
  turn : Array UInt32
  constant : Array UInt32
  mixing : Array (UInt32 → UInt32 → UInt32 → UInt32)

def mixings : Array (UInt32 → UInt32 → UInt32 → UInt32) := #[
  fun x y z => x ^^^ y ^^^ z,
  fun x y z => x &&& y ||| ~~~x &&& z,
  fun x y z => (x ||| ~~~y) ^^^ z,
  fun x y z => x &&& z ||| y &&& ~~~z,
  fun x y z => x ^^^ (y ||| ~~~z)]

def left : Line where
  wordIndex := #[
    0, 1, 2, 3, 4, 5, 6, 7, 8, 9, 10, 11, 12, 13, 14, 15,
    7, 4, 13, 1, 10, 6, 15, 3, 12, 0, 9, 5, 2, 14, 11, 8,
    3, 10, 14, 4, 9, 15, 8, 1, 2, 7, 0, 6, 13, 11, 5, 12,
    1, 9, 11, 10, 0, 8, 12, 4, 13, 3, 7, 15, 14, 5, 6, 2,
    4, 0, 5, 9, 7, 12, 2, 10, 14, 1, 3, 8, 11, 6, 15, 13]
  turn := #[
    11, 14, 15, 12, 5, 8, 7, 9, 11, 13, 14, 15, 6, 7, 9, 8,
    7, 6, 8, 13, 11, 9, 7, 15, 7, 12, 15, 9, 11, 7, 13, 12,
    11, 13, 6, 7, 14, 9, 13, 15, 14, 8, 13, 6, 5, 12, 7, 5,
    11, 12, 14, 15, 14, 15, 9, 8, 9, 14, 5, 6, 8, 6, 5, 12,
    9, 15, 5, 11, 6, 8, 13, 12, 5, 12, 13, 14, 11, 8, 5, 6]
  constant := #[0x00000000, 0x5a827999, 0x6ed9eba1, 0x8f1bbcdc, 0xa953fd4e]
  mixing := mixings

def right : Line where
  wordIndex := #[
    5, 14, 7, 0, 9, 2, 11, 4, 13, 6, 15, 8, 1, 10, 3, 12,
    6, 11, 3, 7, 0, 13, 5, 10, 14, 15, 8, 12, 4, 9, 1, 2,
    15, 5, 1, 3, 7, 14, 6, 9, 11, 8, 12, 2, 10, 0, 4, 13,
    8, 6, 4, 1, 3, 11, 15, 0, 5, 12, 2, 13, 9, 7, 10, 14,
    12, 15, 10, 4, 1, 5, 8, 7, 6, 2, 13, 14, 0, 3, 9, 11]
  turn := #[
    8, 9, 9, 11, 13, 15, 15, 5, 7, 7, 8, 11, 14, 14, 12, 6,
    9, 13, 15, 7, 12, 8, 9, 11, 7, 7, 12, 7, 6, 15, 13, 11,
    9, 7, 15, 11, 8, 6, 6, 14, 12, 13, 5, 14, 13, 13, 7, 5,
    15, 5, 8, 11, 14, 14, 6, 14, 6, 9, 12, 9, 12, 5, 15, 8,
    8, 5, 12, 9, 12, 5, 14, 6, 8, 13, 6, 5, 15, 13, 11, 11]
  constant := #[0x50a28be6, 0x5c4dd124, 0x6d703ef3, 0x7a6d76e9, 0x00000000]
  mixing := mixings.reverse

def Line.round (line : Line) (block : Array UInt32) (i : Nat) (s : State) : State :=
  let mix := line.mixing.getD (i / 16) fun _ _ _ => 0
  let word := block.getD (line.wordIndex.getD i 0) 0
  let sum := s.a + mix s.b s.c s.d + word + line.constant.getD (i / 16) 0
  ⟨s.e, rotateLeft sum (line.turn.getD i 0) + s.e, s.b, rotateLeft s.c 10, s.d⟩

def Line.run (line : Line) (block : Array UInt32) (s : State) : State :=
  Nat.fold 80 (fun i _ s => line.round block i s) s

def compress (s : State) (block : Array UInt32) : State :=
  let l := left.run block s
  let r := right.run block s
  ⟨s.b + l.c + r.d, s.c + l.d + r.e, s.d + l.e + r.a, s.e + l.a + r.b, s.a + l.b + r.c⟩

def State.words (s : State) : List UInt32 := [s.a, s.b, s.c, s.d, s.e]

def digest (message : Bytes) : FixedBytes 20 :=
  let order := ByteOrder.littleEndian
  let final := absorb compress start (order.words (padded order message))
  ⟨order.ofWords final.words, by simp [length_ofWords, State.words]⟩

end BitcoinKeys.Hash.Ripemd160
