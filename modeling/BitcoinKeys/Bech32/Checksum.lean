import BitcoinKeys.Bech32.Charset

/-!
The checksum of six symbols. A register of thirty bits holds the remainder of a polynomial over the
field of 32 elements; a text is right when all its symbols leave the remainder one.
-/
namespace BitcoinKeys.Bech32

abbrev Remainder := BitVec 30

/-- What each of the five bits that leave the register on top contributes to it again. -/
def generators : List Remainder := [0x3b6a57b2, 0x26508e6d, 0x1ea119fa, 0x3d4233dd, 0x2a1462b3]

def feedback (top : Symbol) : Remainder :=
  generators.zipIdx.foldl
    (fun total (generator, i) => if top.getLsbD i then total ^^^ generator else total) 0

def Remainder.push (register : Remainder) (symbol : Symbol) : Remainder :=
  (register.extractLsb' 0 25 ++ symbol) ^^^ feedback (register.extractLsb' 25 5)

def remainder (symbols : List Symbol) : Remainder := symbols.foldl Remainder.push 1

/-- The symbols that the human readable part contributes: the high three bits of every character, a
zero, and the low five bits of every character. -/
def expand (part : List Char) : List Symbol :=
  part.map (fun c => BitVec.ofNat 5 (c.toNat / 32)) ++ 0
    :: part.map (fun c => BitVec.ofNat 5 (c.toNat % 32))

def checksum (part : List Char) (data : List Symbol) : List Symbol :=
  let register := remainder (expand part ++ data ++ List.replicate 6 0) ^^^ 1
  [25, 20, 15, 10, 5, 0].map fun low => register.extractLsb' low 5

/-- Whether the last six symbols are the checksum of the part and the symbols before them. The
remainder that the younger variant of the code asks for is refused like any other. -/
def checksumHolds (part : List Char) (symbols : List Symbol) : Bool :=
  remainder (expand part ++ symbols) = 1

end BitcoinKeys.Bech32
