import BitcoinKeys.PrivateKey

/-!
Schedules of digests. Hashing the scalar of a key again and again gives a chain of keys; a schedule
names depths of the chain, in ascending order, and may leave one to the number at the end of a phrase.
-/
namespace BitcoinKeys

structure RehashSchedule where
  depths : List Nat
  wildcard : Bool
  ascending : depths.Pairwise (· < ·)
deriving DecidableEq

namespace RehashSchedule

def insertDepth (depth : Nat) (depths : List Nat) : List Nat := (depths ++ [depth]).mergeSort

theorem insertDepth_perm (depth : Nat) (depths : List Nat) :
    (insertDepth depth depths).Perm (depth :: depths) :=
  (List.mergeSort_perm ..).trans (List.perm_append_singleton ..)

/-- Sorting puts a new depth between the smaller and the larger ones. -/
theorem pairwise_insertDepth {depth : Nat} {depths : List Nat} (hnew : depth ∉ depths)
    (hascending : depths.Pairwise (· < ·)) : (insertDepth depth depths).Pairwise (· < ·) := by
  have hsorted : (insertDepth depth depths).Pairwise (decide <| · ≤ ·) :=
    List.pairwise_mergeSort (by simpa using fun _ _ _ => Nat.le_trans)
      (by simpa using Nat.le_total) _
  have hdistinct : (insertDepth depth depths).Nodup :=
    (insertDepth_perm depth depths).nodup_iff.mpr
      (List.nodup_cons.mpr ⟨hnew, hascending.imp Nat.ne_of_lt⟩)
  refine hsorted.imp₂ (fun _ _ hle hne => ?_) hdistinct
  exact Nat.lt_of_le_of_ne (of_decide_eq_true hle) hne

def empty : RehashSchedule := ⟨[], false, .nil⟩

def addDepth (schedule : RehashSchedule) (depth : Nat) : Except Error RehashSchedule :=
  if hnew : depth ∈ schedule.depths then .error (.invalidFormat (.duplicateDepth depth))
  else
    .ok { schedule with
      depths := insertDepth depth schedule.depths
      ascending := pairwise_insertDepth hnew schedule.ascending }

def addWildcard (schedule : RehashSchedule) : Except Error RehashSchedule :=
  if schedule.wildcard then .error (.invalidFormat .duplicateWildcard)
  else .ok { schedule with wildcard := true }

def depthBound : Nat := UInt64.size

def parseDepth? (digits : List Char) : Option Nat :=
  let depth := Radix.value 10 (digits.map Decimal.digitValue)
  if digits = [] ∨ depthBound ≤ depth then none else some depth

def readDepth (entry : List Char) : Except Error Nat :=
  if entry.head? = some '-' then .error (.invalidFormat (.negativeDepth (String.ofList entry)))
  else
    match entry.find? (!Char.isDigit ·) with
    | some character => .error (.invalidFormat (.depthCharacter character))
    | none =>
      match parseDepth? entry with
      | none => .error (.invalidFormat (.depthEntry (String.ofList entry)))
      | some depth => .ok depth

def addEntry (schedule : RehashSchedule) (entry : List Char) : Except Error RehashSchedule :=
  if entry = ['w'] then schedule.addWildcard
  else do
    let depth ← readDepth entry
    schedule.addDepth depth

def entries : List Char → List (List Char)
  | [] => [[]]
  | character :: rest =>
    if character = ',' then [] :: entries rest
    else
      match entries rest with
      | [] => [[character]]
      | entry :: others => (character :: entry) :: others

def parse (text : String) : Except Error RehashSchedule :=
  (entries text.toList).foldlM addEntry empty

/-- The number at the end of a phrase. The digits among its bytes are counted from the last one
on, and as many bytes are cut off and read. -/
def trailingNumber? (phrase : String) : Option Nat := do
  let count := ((Text.utf8 phrase).reverse.takeWhile fun byte => (Char.ofUInt8 byte).isDigit).length
  if count = 0 then none
  else
    let (_, digits) ← Text.splitAtByte? (Text.byteLength phrase - count) phrase.toList
    parseDepth? digits

def wildcardMax : Nat := 1000000

/-- The depths with the one that the wildcard stands for, unless that is too large or listed
already. -/
def withWildcard (schedule : RehashSchedule) : Option Nat → List Nat
  | some depth =>
    if depth ≤ wildcardMax ∧ depth ∉ schedule.depths then insertDepth depth schedule.depths
    else schedule.depths
  | none => schedule.depths

def resolve (schedule : RehashSchedule) (phrase : Option String) : List Nat :=
  schedule.withWildcard (if schedule.wildcard then phrase.bind trailingNumber? else none)

/-- Walks the chain once, from a key at a depth to each of the depths in turn. A depth that is
passed already gives the key reached so far. -/
def walk (key : PrivateKey) (depth : Nat) : List Nat → List (Nat × PrivateKey)
  | [] => []
  | next :: rest =>
    let reached := key.rehashes (next - depth)
    (next, reached) :: walk reached (max depth next) rest

def apply (schedule : RehashSchedule) (key : PrivateKey) (phrase : Option String) (already : Nat) :
    List (Nat × PrivateKey) :=
  walk key already (schedule.resolve phrase)

end RehashSchedule
end BitcoinKeys
