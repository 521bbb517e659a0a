import BitcoinKeys.Curve.Point
import BitcoinKeys.PrivateKey

/-!
Random keys. A source of randomness is the endless list of the blocks of 32 bytes that it gives; a
key takes the first block that is a valid scalar, so some blocks are passed over.
-/
namespace BitcoinKeys

abbrev BlockStream := Nat → FixedBytes 32

structure Draw (σ : Type) where
  key : PrivateKey
  position : Nat
  surroundings : σ

namespace BlockStream

def scripted (blocks : List (FixedBytes 32)) (seed : Bytes) : BlockStream := fun position =>
  match blocks[position]? with
  | some block => block
  | none => Hash.sha256 (seed ++ Bytes.ofNat 8 position)

/-- Draws a compressed key from a position on. Every block that is taken, valid or not, has an
effect on the surroundings. There is no key if `limit` blocks in a row are no scalars. -/
def drawKey {σ : Type} (blocks : BlockStream) (drawn : σ → σ) : Nat → Nat → σ → Option (Draw σ)
  | 0, _, _ => none
  | limit + 1, position, surroundings =>
    let block := blocks position
    if Curve.isScalar block.toNat then
      some ⟨⟨block, true⟩, position + 1, drawn surroundings⟩
    else drawKey blocks drawn limit (position + 1) (drawn surroundings)

def drawKeys (blocks : BlockStream) (limit : Nat) : Nat → Nat → Option (List (PrivateKey × Nat))
  | 0, _ => some []
  | count + 1, position => do
    let draw ← blocks.drawKey id limit position ()
    let others ← blocks.drawKeys limit count draw.position
    return (draw.key, draw.position) :: others

end BlockStream
end BitcoinKeys
