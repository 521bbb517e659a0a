import BitcoinKeys.Bytes

/-!
What SHA-256 and RIPEMD-160 have in common: a message is padded to whole blocks of sixteen 32-bit
words, and a compression function takes one block after the other into a state.
-/
namespace BitcoinKeys.Hash

inductive ByteOrder where
  | bigEndian
  | littleEndian

def ByteOrder.bytes (order : ByteOrder) (width n : Nat) : Bytes :=
  match order with
  | .bigEndian => Bytes.ofNat width n
  | .littleEndian => (Bytes.ofNat width n).reverse

def ByteOrder.word (order : ByteOrder) (a b c d : UInt8) : UInt32 :=
  match order with
  | .bigEndian =>
    a.toUInt32 <<< 24 ||| b.toUInt32 <<< 16 ||| c.toUInt32 <<< 8 ||| d.toUInt32
  | .littleEndian =>
    d.toUInt32 <<< 24 ||| c.toUInt32 <<< 16 ||| b.toUInt32 <<< 8 ||| a.toUInt32

def ByteOrder.words (order : ByteOrder) : Bytes → List UInt32
  | a :: b :: c :: d :: rest => order.word a b c d :: order.words rest
  | _ => []

def ByteOrder.ofWords (order : ByteOrder) (words : List UInt32) : Bytes :=
  words.flatMap fun word => order.bytes 4 word.toNat

/-- A message, the byte 0x80, as few zeros as fill the last block up to its last eight bytes, and
there the length of the message in bits. -/
def padded (order : ByteOrder) (message : Bytes) : Bytes :=
  message ++ 0x80 :: List.replicate ((119 - message.length % 64) % 64) 0
    ++ order.bytes 8 (8 * message.length)

def absorb {σ : Type} (compress : σ → Array UInt32 → σ) (start : σ) (words : List UInt32) : σ :=
  let step := fun (progress : σ × Array UInt32) word =>
    let block := progress.2.push word
    if block.size = 16 then (compress progress.1 block, #[]) else (progress.1, block)
  (words.foldl step (start, #[])).1

def rotateLeft (word count : UInt32) : UInt32 := word <<< count ||| word >>> (32 - count)

/-- Every word gives four bytes, whichever the order. -/
theorem length_ofWords (order : ByteOrder) (words : List UInt32) :
    (order.ofWords words).length = 4 * words.length := by
  have hfour (word : UInt32) : (order.bytes 4 word.toNat).length = 4 := by
    cases order <;> simp [ByteOrder.bytes, Bytes.length_ofNat]
  induction words with
  | nil => rfl
  | cons word words ih =>
    have hstep : order.ofWords (word :: words) = order.bytes 4 word.toNat ++ order.ofWords words := rfl
    rw [hstep, List.length_append, hfour, ih, List.length_cons]
    omega

end BitcoinKeys.Hash
