import BitcoinKeys.Bytes

/-!
Texts as byte strings, and the characters that count as blank. Only ASCII has blanks and cases here.
-/
namespace BitcoinKeys.Text

def utf8 (text : String) : Bytes := text.toList.flatMap String.utf8EncodeChar

def byteCount : List Char → Nat
  | [] => 0
  | character :: rest => character.utf8Size + byteCount rest

def byteLength (text : String) : Nat := byteCount text.toList

def splitAtByte? : Nat → List Char → Option (List Char × List Char)
  | 0, text => some ([], text)
  | _, [] => none
  | position, character :: rest =>
    if character.utf8Size ≤ position then
      (splitAtByte? (position - character.utf8Size) rest).map fun (before, after) =>
        (character :: before, after)
    else none

/-- The text whose characters have the bytes as code points. It has the given bytes as its UTF-8
exactly when all of them are ASCII. -/
def ofAscii (bytes : Bytes) : String := String.ofList (bytes.map Char.ofUInt8)

def isBlank (character : Char) : Bool :=
  character = ' ' || character = '\t' || character = '\n' || character = '\x0c' || character = '\r'

def lower (text : String) : String := String.ofList (text.toList.map Char.toLower)

def dropFinalNewline (bytes : Bytes) : Bytes :=
  if bytes.getLast? = some 10 then bytes.dropLast else bytes

end BitcoinKeys.Text
