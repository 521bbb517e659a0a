import BitcoinKeys.Bech32.Checksum
import BitcoinKeys.Bech32.Fault
import BitcoinKeys.Text

/-!
Bech32 texts: a human readable part, the separator '1', and symbols that end in a checksum. A text is
in one case throughout; the part of it that is read or written is in lower case.
-/
namespace BitcoinKeys.Bech32

inductive LetterCase where
  | unknown
  | lower
  | upper
deriving DecidableEq, Repr

def LetterCase.push (seen : LetterCase) (character : Char) : Except Fault LetterCase :=
  if character.isLower then
    if seen = .upper then .error .mixedCase else .ok .lower
  else if character.isUpper then
    if seen = .lower then .error .mixedCase else .ok .upper
  else .ok seen

/-- Takes one character of a human readable part: it is printable ASCII and no blank. A character
outside ASCII is reported by the first of its bytes. -/
def pushPartCharacter (seen : LetterCase) (character : Char) : Except Fault LetterCase :=
  if 33 ≤ character.toNat ∧ character.toNat ≤ 126 then seen.push character
  else .error (.invalidCharacter (Char.ofUInt8 ((String.utf8EncodeChar character).headD 0)))

def partCase (part : List Char) : Except Fault LetterCase :=
  if part = [] ∨ 83 < Text.byteCount part then .error .invalidData
  else part.foldlM pushPartCharacter .unknown

def readSymbols : LetterCase → List Char → Except Fault (List Symbol)
  | _, [] => .ok []
  | seen, character :: rest =>
    if 128 ≤ character.toNat then .error (.invalidCharacter character)
    else do
      let seen ← seen.push character
      match symbol? character with
      | none => .error (.invalidCharacter character)
      | some symbol => (readSymbols seen rest).map (symbol :: ·)

def splitSeparator? (text : List Char) : Option (List Char × List Char) :=
  let backward := text.reverse
  match backward.dropWhile (· ≠ '1') with
  | [] => none
  | _ :: part => some (part.reverse, (backward.takeWhile (· ≠ '1')).reverse)

def maxLength : Nat := 90

def decodeSides (part data : List Char) : Except Fault (String × List Symbol) := do
  let seen ← partCase part
  let symbols ← readSymbols seen data
  let part := part.map Char.toLower
  if checksumHolds part symbols then
    .ok (String.ofList part, symbols.take (symbols.length - 6))
  else .error .badChecksum

def decode (text : String) : Except Fault (String × List Symbol) :=
  let length := Text.byteLength text
  if maxLength < length then .error (.invalidLength length)
  else if length < 8 then .error .invalidData
  else
    match splitSeparator? text.toList with
    | none => .error .missingSeparator
    | some (part, data) =>
      if Text.byteCount data < 6 then .error .invalidData else decodeSides part data

def verify (text : String) : Bool := (decode text).toBool

def encode (part : String) (data : List Symbol) : Except Fault String := do
  let _ ← partCase part.toList
  let part := part.toList.map Char.toLower
  return String.ofList (part ++ '1' :: (data ++ checksum part data).map Symbol.char)

def symbolsOfBytes : Bytes → Except Fault (List Symbol)
  | [] => .ok []
  | byte :: bytes =>
    if byte.toNat < 32 then (symbolsOfBytes bytes).map (BitVec.ofNat 5 byte.toNat :: ·)
    else .error .invalidData

def bytesOfSymbols (symbols : List Symbol) : Bytes := symbols.map fun symbol => UInt8.ofNat symbol.toNat

def encodeBytes (part : String) (data : Bytes) : Except Fault String := do
  let symbols ← symbolsOfBytes data
  encode part symbols

end BitcoinKeys.Bech32
