import BitcoinKeys.Bytes
import BitcoinKeys.Bech32.Fault

/-!
Cutting the bits of a list of small numbers into groups of another width, most significant bit first.
-/
namespace BitcoinKeys.Bech32

structure GroupWidth where
  bits : Nat
  bits_pos : 0 < bits
  bits_le : bits ≤ 8

def GroupWidth.ofNat? (bits : Nat) : Option GroupWidth :=
  if h : 0 < bits ∧ bits ≤ 8 then some ⟨bits, h.1, h.2⟩ else none

def GroupWidth.symbol : GroupWidth := ⟨5, by decide, by decide⟩

def GroupWidth.byte : GroupWidth := ⟨8, by decide, by decide⟩

structure Pending where
  value : Nat
  width : Nat

def Pending.drain (out : GroupWidth) (pending : Pending) : Bytes × Pending :=
  let left := pending.width % out.bits
  let groups := Radix.fixed (1 <<< out.bits) (pending.width / out.bits) (pending.value >>> left)
  (groups.map UInt8.ofNat, ⟨pending.value % (1 <<< left), left⟩)

def Pending.push (into : GroupWidth) (pending : Pending) (value : UInt8) : Pending :=
  ⟨(pending.value <<< into.bits) + value.toNat, pending.width + into.bits⟩

/-- What is written for the bits that do not fill a group. With padding they are the top of one more
group. Without it they have to be zeros, and fewer than the width of the groups read. -/
def Pending.finish (source target : GroupWidth) (pad : Bool) (pending : Pending) :
    Except Fault Bytes :=
  if pad then
    if pending.width = 0 then .ok []
    else .ok [UInt8.ofNat (pending.value <<< (target.bits - pending.width))]
  else if source.bits ≤ pending.width ∨ pending.value ≠ 0 then .error .invalidData
  else .ok []

def regroupFrom (source target : GroupWidth) (pad : Bool) : Pending → Bytes → Except Fault Bytes
  | pending, [] => pending.finish source target pad
  | pending, value :: values =>
    if 1 <<< source.bits ≤ value.toNat then .error .invalidData
    else
      let (groups, pending) := (pending.push source value).drain target
      (regroupFrom source target pad pending values).map (groups ++ ·)

def regroup (source target : GroupWidth) (pad : Bool) (values : Bytes) : Except Fault Bytes :=
  regroupFrom source target pad ⟨0, 0⟩ values

end BitcoinKeys.Bech32
