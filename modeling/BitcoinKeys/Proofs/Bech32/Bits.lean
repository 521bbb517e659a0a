import BitcoinKeys.Proofs.Bech32.Register
import Mathlib.Algebra.Order.Floor.Div

/-! Regrouping bit by bit. With padding the groups have the bits of the values and a few zeros behind
them; without padding the values have the bits of the groups and a few zeros behind them. -/
namespace BitcoinKeys.Bech32

def GroupWidth.Holds (width : GroupWidth) (groups : Bytes) : Prop :=
  ∀ group ∈ groups, group.toNat < 2 ^ width.bits

def numberOf (width : GroupWidth) (groups : Bytes) : Nat :=
  Radix.value (2 ^ width.bits) (groups.map UInt8.toNat)

def groupsOf (width : GroupWidth) (count n : Nat) : Bytes :=
  (Radix.fixed (2 ^ width.bits) count n).map UInt8.ofNat

section

variable (width : GroupWidth) (count n : Nat)

theorem length_groupsOf : (groupsOf width count n).length = count := by
  rw [groupsOf, List.length_map, Radix.length_fixed]

theorem map_toNat_groupsOf :
    (groupsOf width count n).map UInt8.toNat = Radix.fixed (2 ^ width.bits) count n := by
  refine Bytes.map_toNat_map_ofNat _ fun d hd => ?_
  exact (Radix.fixed_lt _ _ _ (Nat.two_pow_pos _) d hd).trans_le width.two_pow_le

theorem groupsOf_succ : groupsOf width (count + 1) n =
    groupsOf width count (n / 2 ^ width.bits) ++ [UInt8.ofNat (n % 2 ^ width.bits)] := by
  rw [groupsOf, Radix.fixed_succ, List.map_append]
  rfl

theorem holds_groupsOf : width.Holds (groupsOf width count n) := by
  intro group hgroup
  have hmem := List.mem_map_of_mem (f := UInt8.toNat) hgroup
  rw [map_toNat_groupsOf] at hmem
  exact Radix.fixed_lt _ _ _ (Nat.two_pow_pos _) _ hmem

theorem numberOf_groupsOf (h : n < 2 ^ (width.bits * count)) :
    numberOf width (groupsOf width count n) = n := by
  rw [pow_mul] at h
  rw [numberOf, map_toNat_groupsOf, Radix.value_fixed, Nat.mod_eq_of_lt h]

end

/-- Groups are the digits of their number. -/
theorem groupsOf_numberOf {width : GroupWidth} {groups : Bytes} (h : width.Holds groups) :
    groupsOf width groups.length (numberOf width groups) = groups := by
  have hfixed := Radix.fixed_value (2 ^ width.bits) width.one_lt_two_pow (groups.map UInt8.toNat)
    (List.forall_mem_map.mpr h)
  rw [List.length_map] at hfixed
  rw [groupsOf, numberOf, hfixed, Bytes.map_ofNat_map_toNat]

theorem length_bitsOf (width : GroupWidth) (groups : Bytes) :
    (bitsOf width groups).length = width.bits * groups.length := by
  induction groups with
  | nil => rfl
  | cons group groups ih =>
    have hbits : bitsOf width (group :: groups) =
        Radix.fixed 2 width.bits group.toNat ++ bitsOf width groups := List.flatMap_cons
    rw [hbits, List.length_append, Radix.length_fixed, ih, List.length_cons, Nat.mul_succ,
      Nat.add_comm]

/-- Whether groups have the bits of values and a number of zeros behind them. -/
structure Extends (source target : GroupWidth) (values groups : Bytes) (zeros : Nat) : Prop where
  values_hold : source.Holds values
  groups_hold : target.Holds groups
  bits : bitsOf target groups = bitsOf source values ++ List.replicate zeros 0

variable {source target : GroupWidth} {values groups groups' : Bytes} {zeros zeros' : Nat}

theorem numberOf_mul_two_pow_lt (zeros : Nat) (hvalues : source.Holds values) :
    numberOf source values * 2 ^ zeros < 2 ^ (source.bits * values.length + zeros) := by
  rw [pow_add]
  exact Nat.mul_lt_mul_of_pos_right (value_groups_lt source values hvalues) (Nat.two_pow_pos _)

/-- No bit is lost and none comes in but the zeros. -/
theorem Extends.length (h : Extends source target values groups zeros) :
    target.bits * groups.length = source.bits * values.length + zeros := by
  have hlength := congrArg List.length h.bits
  rwa [List.length_append, length_bitsOf, length_bitsOf, List.length_replicate] at hlength

/-- The quotient rounded up is the least count of which no whole divisor is too many. -/
theorem ceilDiv_eq_iff {total width count : Nat} (hw : 0 < width) :
    total ⌈/⌉ width = count ↔ total ≤ width * count ∧ width * count < total + width := by
  constructor
  · rintro rfl
    have hfloor : width * (total ⌈/⌉ width) ≤ total + width - 1 := Nat.mul_div_le ..
    exact ⟨(ceilDiv_le_iff_le_mul hw).mp le_rfl, by omega⟩
  · rintro ⟨hlow, hhigh⟩
    apply Nat.le_antisymm
    · exact (ceilDiv_le_iff_le_mul hw).mpr hlow
    · rw [Nat.ceilDiv_eq_add_pred_div, Nat.le_div_iff_mul_le hw, Nat.mul_comm]
      omega

theorem Extends.length_eq_ceilDiv (h : Extends source target values groups zeros)
    (hzeros : zeros < target.bits) :
    groups.length = source.bits * values.length ⌈/⌉ target.bits := by
  have hlength := h.length
  symm
  apply (ceilDiv_eq_iff target.bits_pos).mpr
  omega

/-- Zeros that do not fill a value are left over by the values. -/
theorem Extends.length_mod (h : Extends source target values groups zeros)
    (hzeros : zeros < source.bits) : target.bits * groups.length % source.bits = zeros := by
  rw [h.length, Nat.mul_add_mod, Nat.mod_eq_of_lt hzeros]

/-- Zeros behind the bits are a factor of the number. -/
theorem extends_iff (hvalues : source.Holds values) (hgroups : target.Holds groups)
    (hlength : target.bits * groups.length = source.bits * values.length + zeros) :
    Extends source target values groups zeros ↔
      numberOf target groups = numberOf source values * 2 ^ zeros := by
  have hnumber := numberOf_mul_two_pow_lt zeros hvalues
  -- both sides are as many binary digits of a number that has no more
  have hlt : numberOf target groups < 2 ^ (source.bits * values.length + zeros) :=
    hlength ▸ value_groups_lt target groups hgroups
  have hbits : bitsOf target groups = bitsOf source values ++ List.replicate zeros 0 ↔
      numberOf target groups = numberOf source values * 2 ^ zeros := by
    rw [bitsOf_eq target groups hgroups, bitsOf_eq source values hvalues,
      ← Radix.fixed_mul_pow 2 _ zeros _ (by decide), hlength]
    exact Radix.fixed_inj 2 hlt hnumber
  exact ⟨fun h => hbits.mp h.bits, fun h => ⟨hvalues, hgroups, hbits.mpr h⟩⟩

/-- The bits and the number of zeros determine the groups, if the zeros do not fill a group. -/
theorem Extends.unique (h : Extends source target values groups zeros)
    (h' : Extends source target values groups' zeros')
    (hzeros : zeros < target.bits) (hzeros' : zeros' < target.bits) : groups = groups' := by
  have hlength := h.length
  have hlength' := h'.length
  -- as many groups, so as many zeros, so the same number
  have hsame : groups.length = groups'.length :=
    (h.length_eq_ceilDiv hzeros).trans (h'.length_eq_ceilDiv hzeros').symm
  obtain rfl : zeros = zeros' := by
    rw [hsame] at hlength
    omega
  rw [← groupsOf_numberOf h.groups_hold, ← groupsOf_numberOf h'.groups_hold, hsame,
    (extends_iff h.values_hold h.groups_hold hlength).mp h,
    (extends_iff h'.values_hold h'.groups_hold hlength').mp h']

/-- A value too large for its group is refused with and without padding. -/
theorem holds_of_regroup {pad : Bool} (h : regroup source target pad values = .ok groups) :
    source.Holds values := by
  by_contra hlarge
  cases h.symm.trans (regroupFrom_of_too_large source target pad values hlarge _)

theorem extends_groupsOf {count : Nat} (hvalues : source.Holds values)
    (hlength : target.bits * count = source.bits * values.length + zeros) :
    Extends source target values (groupsOf target count (numberOf source values * 2 ^ zeros))
      zeros := by
  have hlt : numberOf source values * 2 ^ zeros < 2 ^ (target.bits * count) :=
    hlength ▸ numberOf_mul_two_pow_lt zeros hvalues
  have hgroups := holds_groupsOf target count (numberOf source values * 2 ^ zeros)
  apply (extends_iff hvalues hgroups (by rw [length_groupsOf, hlength])).mpr
  exact numberOf_groupsOf target count _ hlt

/-- The bits that are left over stand on top of the last group. -/
theorem exists_regroup_padded (target : GroupWidth) (hvalues : source.Holds values) :
    ∃ count zeros, zeros < target.bits ∧
      target.bits * count = source.bits * values.length + zeros ∧
      regroup source target true values =
        .ok (groupsOf target count (numberOf source values * 2 ^ zeros)) := by
  have hwritten := regroup_eq source target true values hvalues
  simp only [drain_eq, Pending.finish, if_true, Nat.shiftLeft_eq] at hwritten
  rw [← numberOf, ← groupsOf] at hwritten
  have hsplit := Nat.div_add_mod (source.bits * values.length) target.bits
  have hleft := Nat.mod_lt (source.bits * values.length) target.bits_pos
  generalize source.bits * values.length / target.bits = whole at *
  generalize source.bits * values.length % target.bits = left at *
  -- a last group is written only if bits are left over
  rcases Nat.eq_zero_or_pos left with rfl | hpos
  · refine ⟨whole, 0, target.bits_pos, hsplit, ?_⟩
    rw [hwritten, pow_zero, Nat.mul_one, Nat.div_one, if_pos rfl]
    exact congrArg Except.ok (List.append_nil _)
  · have hpow : 2 ^ target.bits = 2 ^ left * 2 ^ (target.bits - left) := by
      rw [← pow_add, Nat.add_sub_cancel' hleft.le]
    refine ⟨whole + 1, target.bits - left, by omega, by rw [Nat.mul_succ]; omega, ?_⟩
    rw [hwritten, if_neg hpos.ne', groupsOf_succ, hpow,
      Nat.mul_div_mul_right _ _ (Nat.two_pow_pos _), Nat.mul_mod_mul_right]
    rfl

/-- With padding there are fewer zeros behind the bits of the values than a group has. -/
theorem regroup_padded_eq_ok_iff :
    regroup source target true values = .ok groups ↔
      ∃ zeros < target.bits, Extends source target values groups zeros := by
  constructor
  · intro h
    have hvalues := holds_of_regroup h
    obtain ⟨count, zeros, hzeros, hlength, hwritten⟩ := exists_regroup_padded target hvalues
    cases h.symm.trans hwritten
    exact ⟨zeros, hzeros, extends_groupsOf hvalues hlength⟩
  · rintro ⟨zeros, hzeros, h⟩
    obtain ⟨count, zeros', hzeros', hlength, hwritten⟩ := exists_regroup_padded target h.values_hold
    rw [hwritten, (extends_groupsOf h.values_hold hlength).unique h hzeros' hzeros]

/-- With padding nothing else is refused. -/
theorem exists_regroup_padded_iff :
    (∃ groups, regroup source target true values = .ok groups) ↔ source.Holds values := by
  constructor
  · rintro ⟨groups, h⟩
    exact holds_of_regroup h
  · intro hvalues
    obtain ⟨count, zeros, -, -, hwritten⟩ := exists_regroup_padded target hvalues
    exact ⟨_, hwritten⟩

theorem regroup_padded_eq_ok_iff_bits :
    regroup source target true values = .ok groups ↔
      source.Holds values ∧ target.Holds groups ∧
        groups.length = source.bits * values.length ⌈/⌉ target.bits ∧
        bitsOf target groups = bitsOf source values ++
          List.replicate (target.bits * groups.length - source.bits * values.length) 0 := by
  rw [regroup_padded_eq_ok_iff]
  constructor
  · rintro ⟨zeros, hzeros, h⟩
    have hcount : target.bits * groups.length - source.bits * values.length = zeros := by
      rw [h.length, Nat.add_sub_cancel_left]
    rw [hcount]
    exact ⟨h.values_hold, h.groups_hold, h.length_eq_ceilDiv hzeros, h.bits⟩
  · rintro ⟨hvalues, hgroups, hlength, hbits⟩
    obtain ⟨hlow, hhigh⟩ := (ceilDiv_eq_iff target.bits_pos).mp hlength.symm
    exact ⟨_, by omega, hvalues, hgroups, hbits⟩

/-- Without padding the bits left over have to be zeros and no whole group. -/
theorem regroup_unpadded_eq_ok_iff_number (hvalues : source.Holds values) :
    regroup source target false values = .ok groups ↔
      (source.bits * values.length % target.bits < source.bits ∧
          numberOf source values % 2 ^ (source.bits * values.length % target.bits) = 0) ∧
        groups = groupsOf target (source.bits * values.length / target.bits)
          (numberOf source values / 2 ^ (source.bits * values.length % target.bits)) :=
  regroup_unpadded_eq_ok_iff source target values groups hvalues

/-- Without padding there are fewer zeros behind the bits of the groups than a group or a value
has. -/
theorem regroup_unpadded_eq_ok_iff_extends :
    regroup source target false values = .ok groups ↔
      ∃ zeros, zeros < source.bits ∧ zeros < target.bits ∧
        Extends target source groups values zeros := by
  constructor
  · intro h
    have hvalues := holds_of_regroup h
    obtain ⟨⟨hleft, hzero⟩, rfl⟩ := (regroup_unpadded_eq_ok_iff_number hvalues).mp h
    refine ⟨_, hleft, Nat.mod_lt _ target.bits_pos, ?_⟩
    have hlt : numberOf source values < 2 ^ (source.bits * values.length) :=
      value_groups_lt source values hvalues
    have hsplit := Nat.div_add_mod (source.bits * values.length) target.bits
    generalize source.bits * values.length / target.bits = whole at *
    generalize source.bits * values.length % target.bits = left at *
    have hnumber : numberOf source values / 2 ^ left < 2 ^ (target.bits * whole) := by
      rw [Nat.div_lt_iff_lt_mul (Nat.two_pow_pos _), ← pow_add, hsplit]
      exact hlt
    -- the groups are the quotient, from which the number comes back as nothing is left over
    apply (extends_iff (holds_groupsOf target whole _) hvalues (by rw [length_groupsOf, hsplit])).mpr
    rw [numberOf_groupsOf target whole _ hnumber,
      Nat.div_mul_cancel (Nat.dvd_of_mod_eq_zero hzero)]
  · rintro ⟨zeros, hsource, htarget, h⟩
    have hlength := h.length
    have hnumber := (extends_iff h.values_hold h.groups_hold hlength).mp h
    have hcount : source.bits * values.length / target.bits = groups.length := by
      rw [hlength, Nat.mul_add_div target.bits_pos, Nat.div_eq_of_lt htarget, Nat.add_zero]
    rw [regroup_unpadded_eq_ok_iff_number h.groups_hold, h.length_mod htarget, hcount, hnumber, Nat.mul_mod_left,
      Nat.mul_div_cancel _ (Nat.two_pow_pos _), groupsOf_numberOf h.values_hold]
    exact ⟨⟨hsource, rfl⟩, rfl⟩

theorem regroup_unpadded_eq_ok_iff_bits :
    regroup source target false values = .ok groups ↔
      source.bits * values.length % target.bits < source.bits ∧
        source.Holds values ∧ target.Holds groups ∧
        bitsOf source values = bitsOf target groups ++
          List.replicate (source.bits * values.length % target.bits) 0 := by
  rw [regroup_unpadded_eq_ok_iff_extends]
  constructor
  · rintro ⟨zeros, hsource, htarget, h⟩
    rw [h.length_mod htarget]
    exact ⟨hsource, h.groups_hold, h.values_hold, h.bits⟩
  · rintro ⟨hleft, hvalues, hgroups, hbits⟩
    exact ⟨_, hleft, Nat.mod_lt _ target.bits_pos, hgroups, hvalues, hbits⟩

/-- The bits behind the last whole group have to be zeros, and fewer than a value has. -/
theorem exists_regroup_unpadded_iff :
    (∃ groups, regroup source target false values = .ok groups) ↔
      source.Holds values ∧
        source.bits * values.length % target.bits < source.bits ∧
        List.replicate (source.bits * values.length % target.bits) 0 <:+ bitsOf source values := by
  by_cases hvalues : source.Holds values
  · have hsplit := Nat.div_add_mod (source.bits * values.length) target.bits
    have hzeros := Radix.replicate_suffix_fixed_iff 2
      (target.bits * (source.bits * values.length / target.bits))
      (source.bits * values.length % target.bits) (numberOf source values) (by decide)
    -- the bits left over are the lowest of the number
    rw [hsplit, numberOf, ← bitsOf_eq source values hvalues, ← numberOf] at hzeros
    simp only [regroup_unpadded_eq_ok_iff_number hvalues, exists_and_left, exists_eq, and_true,
      hzeros, hvalues, true_and]
  · simp only [hvalues, false_and, iff_false, not_exists]
    intro groups h
    exact hvalues (holds_of_regroup h)

/-- What is read without padding is written back as it was with padding. -/
theorem regroup_padded_of_unpadded (h : regroup source target false values = .ok groups) :
    regroup target source true groups = .ok values := by
  obtain ⟨zeros, hsource, -, hextends⟩ := regroup_unpadded_eq_ok_iff_extends.mp h
  exact regroup_padded_eq_ok_iff.mpr ⟨zeros, hsource, hextends⟩

/-- Groups that are no wider than the values leave no room for a group of zeros alone. -/
theorem regroup_unpadded_of_padded (hwidth : target.bits ≤ source.bits)
    (h : regroup source target true values = .ok groups) :
    regroup target source false groups = .ok values := by
  obtain ⟨zeros, htarget, hextends⟩ := regroup_padded_eq_ok_iff.mp h
  exact regroup_unpadded_eq_ok_iff_extends.mpr
    ⟨zeros, htarget, htarget.trans_le hwidth, hextends⟩

/-- A conversion keeps the bits: with padding zeros come behind them that do not fill a group,
without padding the bits that do not fill a group have to be zeros and too few for a value. A
number too large for its width is refused. What is read without padding is written back with it,
and what is written with padding is read back without it unless a group is wider than a value. A
register of 32 bits does for all of this. -/
theorem regroups_bit_for_bit (source target : GroupWidth) (values : Bytes) :
    let total := source.bits * values.length
    let left := total % target.bits
    (∀ groups, regroup source target true values = .ok groups ↔
        source.Holds values ∧ target.Holds groups ∧ groups.length = total ⌈/⌉ target.bits ∧
          bitsOf target groups =
            bitsOf source values ++ List.replicate (target.bits * groups.length - total) 0) ∧
      ((∃ groups, regroup source target true values = .ok groups) ↔ source.Holds values) ∧
      (∀ groups, regroup source target false values = .ok groups ↔
        left < source.bits ∧ source.Holds values ∧ target.Holds groups ∧
          bitsOf source values = bitsOf target groups ++ List.replicate left 0) ∧
      ((∃ groups, regroup source target false values = .ok groups) ↔
        source.Holds values ∧ left < source.bits ∧
          List.replicate left 0 <:+ bitsOf source values) ∧
      (∀ pad, (∃ value ∈ values, 2 ^ source.bits ≤ value.toNat) →
        regroup source target pad values = .error .invalidData) ∧
      (∀ groups, regroup source target false values = .ok groups →
        regroup target source true groups = .ok values) ∧
      (∀ groups, target.bits ≤ source.bits → regroup source target true values = .ok groups →
        regroup target source false groups = .ok values) ∧
      ∀ pad, stream source target pad values = regroup source target pad values := by
  intro total left
  refine ⟨fun groups => regroup_padded_eq_ok_iff_bits, exists_regroup_padded_iff,
    fun groups => regroup_unpadded_eq_ok_iff_bits, exists_regroup_unpadded_iff, ?_,
    fun groups => regroup_padded_of_unpadded, fun groups => regroup_unpadded_of_padded,
    fun pad => stream_eq_regroup source target pad values⟩
  rintro pad ⟨value, hvalue, hlarge⟩
  apply regroupFrom_of_too_large
  intro hvalues
  exact Nat.not_lt.mpr hlarge (hvalues value hvalue)

/-- Sixteen bits fill three symbols and one bit of a fourth. As that bit is a zero, it is left out
without padding, and comes back with it. -/
theorem regroups_sixteen_bits :
    regroup .byte .symbol true [0xff, 0x80] = .ok [31, 30, 0, 0] ∧
      regroup .symbol .byte false [31, 30, 0, 0] = .ok [0xff, 0x80] ∧
      regroup .byte .symbol false [0xff, 0x80] = .ok [31, 30, 0] ∧
      regroup .symbol .byte true [31, 30, 0] = .ok [0xff, 0x80] ∧
      regroup .symbol .byte false [31, 32] = .error .invalidData := by
  have hpadded : regroup .byte .symbol true [0xff, 0x80] = .ok [31, 30, 0, 0] := by decide
  have hunpadded : regroup .byte .symbol false [0xff, 0x80] = .ok [31, 30, 0] := by decide
  obtain ⟨-, -, -, -, -, hback, hforth, -⟩ := regroups_bit_for_bit .byte .symbol [0xff, 0x80]
  obtain ⟨-, -, -, -, hlarge, -⟩ := regroups_bit_for_bit .symbol .byte [31, 32]
  refine ⟨hpadded, ?_, hunpadded, hback _ hunpadded, ?_⟩
  · exact hforth _ (by decide) hpadded
  · exact hlarge false ⟨32, by decide, by decide⟩

end BitcoinKeys.Bech32
