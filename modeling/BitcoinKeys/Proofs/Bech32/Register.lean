import BitcoinKeys.Proofs.Bech32.Regroup

/-! Regrouping through a register of 32 bits, out of whose top every shift pushes bits. All of these have
been written before, so the register serves as well as the exact number does. -/
namespace BitcoinKeys.Bech32

def GroupWidth.low (width : GroupWidth) (register : BitVec 32) : UInt8 :=
  UInt8.ofNat (register &&& BitVec.ofNat 32 ((1 <<< width.bits) - 1)).toNat

/-- Writes groups off the top of the low bits that are pending, until fewer than a group remain. The
register itself stays as it is. -/
def emit (target : GroupWidth) (register : BitVec 32) (pending : Nat) : Bytes × Nat :=
  if target.bits ≤ pending then
    let (groups, left) := emit target register (pending - target.bits)
    (target.low (register >>> (pending - target.bits)) :: groups, left)
  else ([], pending)
termination_by pending
decreasing_by
  have := target.bits_pos
  omega

def streamFrom (source target : GroupWidth) (pad : Bool) :
    BitVec 32 → Nat → Bytes → Except Fault Bytes
  | register, pending, [] =>
    let last := target.low (register <<< (target.bits - pending))
    if pad then
      if 0 < pending then .ok [last] else .ok []
    else if source.bits ≤ pending ∨ last ≠ 0 then .error .invalidData
    else .ok []
  | register, pending, value :: values =>
    if value.toNat >>> source.bits ≠ 0 then .error .invalidData
    else
      let register := register <<< source.bits ||| BitVec.ofNat 32 value.toNat
      let (groups, pending) := emit target register (pending + source.bits)
      (streamFrom source target pad register pending values).map (groups ++ ·)

def stream (source target : GroupWidth) (pad : Bool) (values : Bytes) : Except Fault Bytes :=
  streamFrom source target pad 0 0 values

theorem low_eq (width : GroupWidth) (register : BitVec 32) :
    width.low register = UInt8.ofNat (register.toNat % 2 ^ width.bits) := by
  have hmask : 2 ^ width.bits - 1 < 2 ^ 32 := by
    have := width.two_pow_le
    omega
  rw [GroupWidth.low, Nat.one_shiftLeft, BitVec.toNat_and, BitVec.toNat_ofNat,
    Nat.mod_eq_of_lt hmask, Nat.and_two_pow_sub_one_eq_mod]

/-- What the loop writes are the groups that the pending bits fill. -/
theorem emit_eq (target : GroupWidth) (register : BitVec 32) (pending : Nat) :
    emit target register pending =
      ((Radix.fixed (2 ^ target.bits) (pending / target.bits)
          (register.toNat / 2 ^ (pending % target.bits))).map UInt8.ofNat,
        pending % target.bits) := by
  fun_induction emit target register pending with
  | case1 pending hfull groups left hrest ih =>
    have hdiv : pending / target.bits = (pending - target.bits) / target.bits + 1 :=
      Nat.div_eq_sub_div target.bits_pos hfull
    have hmod : (pending - target.bits) % target.bits = pending % target.bits :=
      (Nat.mod_eq_sub_mod hfull).symm
    -- the first group is the digit above those of the rest
    have hshift : pending - target.bits =
        pending % target.bits + target.bits * ((pending - target.bits) / target.bits) := by
      rw [← hmod, Nat.mod_add_div]
    rw [hrest, hmod] at ih
    obtain ⟨hgroups, hleft⟩ := Prod.mk.inj ih
    rw [hdiv, Radix.fixed_cons, List.map_cons, ← hgroups, ← hleft, low_eq,
      BitVec.toNat_ushiftRight, Nat.shiftRight_eq_div_pow, hleft, Nat.div_div_eq_div_mul,
      ← pow_mul, ← pow_add, ← hshift]
  | case2 pending hfew =>
    have hlt := Nat.lt_of_not_le hfew
    rw [Nat.div_eq_of_lt hlt, Nat.mod_eq_of_lt hlt]
    rfl

def pendingOf (register : BitVec 32) (pending : Nat) : Pending := ⟨register.toNat % 2 ^ pending, pending⟩

/-- As long as the register has room for the pending bits, none of them is lost in a shift. -/
theorem pendingOf_push (source : GroupWidth) (register : BitVec 32) (pending : Nat) (value : UInt8)
    (hroom : pending + source.bits ≤ 32) (hvalue : value.toNat < 2 ^ source.bits) :
    pendingOf (register <<< source.bits ||| BitVec.ofNat 32 value.toNat) (pending + source.bits) =
      (pendingOf register pending).push source value := by
  have hword : (register <<< source.bits ||| BitVec.ofNat 32 value.toNat).toNat =
      (register.toNat * 2 ^ source.bits + value.toNat) % 2 ^ 32 := by
    rw [BitVec.toNat_or, BitVec.toNat_shiftLeft, BitVec.toNat_ofNat, ← Nat.or_mod_two_pow,
      ← Nat.shiftLeft_add_eq_or_of_lt hvalue, Nat.shiftLeft_eq]
  have hhigh : (register.toNat * 2 ^ source.bits + value.toNat) / 2 ^ source.bits = register.toNat := by
    rw [Nat.add_comm, Nat.add_mul_div_right _ _ (Nat.two_pow_pos _), Nat.div_eq_of_lt hvalue,
      Nat.zero_add]
  have hlow : (register.toNat * 2 ^ source.bits + value.toNat) % 2 ^ source.bits = value.toNat := by
    rw [Nat.mul_add_mod_self_right, Nat.mod_eq_of_lt hvalue]
  have hkept : (register.toNat * 2 ^ source.bits + value.toNat) % 2 ^ (pending + source.bits) =
      register.toNat % 2 ^ pending * 2 ^ source.bits + value.toNat := by
    rw [Nat.add_comm pending, pow_add, Nat.mod_mul, hhigh, hlow, Nat.mul_comm, Nat.add_comm]
  -- the word cuts the sum above the pending bits
  rw [push_eq, pendingOf, pendingOf, hword, Nat.mod_mod_of_dvd _ (Nat.pow_dvd_pow 2 hroom), hkept]

/-- The loop over a register writes what the exact number would, and leaves the same bits. -/
theorem drain_pendingOf (target : GroupWidth) (register : BitVec 32) (pending : Nat) :
    (pendingOf register pending).drain target =
      ((emit target register pending).1, pendingOf register (emit target register pending).2) := by
  have hsplit : pending = pending % target.bits + target.bits * (pending / target.bits) :=
    (Nat.mod_add_div ..).symm
  have hpow : 2 ^ pending =
      2 ^ (pending % target.bits) * (2 ^ target.bits) ^ (pending / target.bits) := by
    rw [← pow_mul, ← pow_add, ← hsplit]
  -- what stands above the pending bits comes into none of the groups
  rw [drain_eq, emit_eq, pendingOf, pendingOf]
  simp only [hpow, Nat.mod_mul_right_div_self, Nat.mod_mul_right_mod,
    Radix.fixed_mod _ _ _ target.one_lt_two_pow]

/-- What is left at the end is written, or refused, alike. -/
theorem streamFrom_nil (source target : GroupWidth) (pad : Bool) (register : BitVec 32)
    (pending : Nat) (h : pending < target.bits) :
    streamFrom source target pad register pending [] =
      (pendingOf register pending).finish source target pad := by
  have hpow : 2 ^ target.bits = 2 ^ pending * 2 ^ (target.bits - pending) := by
    rw [← pow_add, Nat.add_sub_cancel' h.le]
  have hword : 2 ^ target.bits ∣ 2 ^ 32 :=
    Nat.pow_dvd_pow 2 (target.bits_le.trans (by decide))
  have hlast : target.low (register <<< (target.bits - pending)) =
      UInt8.ofNat (register.toNat % 2 ^ pending * 2 ^ (target.bits - pending)) := by
    rw [low_eq, BitVec.toNat_shiftLeft, Nat.shiftLeft_eq, Nat.mod_mod_of_dvd _ hword, hpow,
      Nat.mul_mod_mul_right]
  -- the group for the bits left over is zero only if the bits are
  have hzero : target.low (register <<< (target.bits - pending)) = 0 ↔
      register.toNat % 2 ^ pending = 0 := by
    have hlt : register.toNat % 2 ^ pending * 2 ^ (target.bits - pending) < 2 ^ 8 := by
      calc register.toNat % 2 ^ pending * 2 ^ (target.bits - pending)
          < 2 ^ pending * 2 ^ (target.bits - pending) :=
            Nat.mul_lt_mul_of_pos_right (Nat.mod_lt _ (Nat.two_pow_pos _)) (Nat.two_pow_pos _)
        _ = 2 ^ target.bits := hpow.symm
        _ ≤ 2 ^ 8 := target.two_pow_le
    rw [hlast, ← UInt8.toNat_inj, UInt8.toNat_ofNat_of_lt' hlt]
    exact Nat.mul_eq_zero.trans (or_iff_left (Nat.two_pow_pos _).ne')
  rw [streamFrom, Pending.finish, pendingOf]
  simp only [ne_eq, hzero, Nat.shiftLeft_eq]
  rw [hlast]
  simp only [Nat.pos_iff_ne_zero, ite_not]

/-- A register with fewer pending bits than a group goes on like the number of these bits. -/
theorem streamFrom_eq (source target : GroupWidth) (pad : Bool) (values : Bytes)
    (register : BitVec 32) (pending : Nat) (h : pending < target.bits) :
    streamFrom source target pad register pending values =
      regroupFrom source target pad (pendingOf register pending) values := by
  -- the loop leaves fewer bits than a group, so there is room for the next value
  induction values generalizing register pending with
  | nil => rw [streamFrom_nil source target pad register pending h, regroupFrom]
  | cons value values ih =>
    have hlarge : value.toNat >>> source.bits ≠ 0 ↔ 1 <<< source.bits ≤ value.toNat := by
      rw [Nat.shiftRight_eq_div_pow, Nat.one_shiftLeft, Nat.div_ne_zero_iff]
      exact and_iff_right (Nat.two_pow_pos _).ne'
    rw [streamFrom, regroupFrom]
    simp only [hlarge]
    split_ifs with hvalue
    · rfl
    · have hroom : pending + source.bits ≤ 32 := by
        have := source.bits_le
        have := target.bits_le
        omega
      rw [Nat.one_shiftLeft, Nat.not_le] at hvalue
      rw [← pendingOf_push source register pending value hroom hvalue, drain_pendingOf, emit_eq]
      simp only [ih _ _ (Nat.mod_lt _ target.bits_pos)]

/-- A register of 32 bits is wide enough. -/
theorem stream_eq_regroup (source target : GroupWidth) (pad : Bool) (values : Bytes) :
    stream source target pad values = regroup source target pad values :=
  streamFrom_eq source target pad values 0 0 target.bits_pos

end BitcoinKeys.Bech32
