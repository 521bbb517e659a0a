import BitcoinKeys.Bech32.Regroup
import BitcoinKeys.Proofs.Bytes
import BitcoinKeys.Proofs.Except
import Mathlib.Tactic.Ring

/-! Regrouping writes the number of all the bits in digits of the other width: it makes no difference
whether whole groups are written off as soon as they are complete or only at the end. -/
namespace BitcoinKeys.Bech32

theorem GroupWidth.one_lt_two_pow (width : GroupWidth) : 1 < 2 ^ width.bits :=
  Nat.one_lt_two_pow width.bits_pos.ne'

theorem GroupWidth.two_pow_le (width : GroupWidth) : 2 ^ width.bits ≤ 256 :=
  Nat.pow_le_pow_right (by decide) width.bits_le

/-- Pending bits above those that stay pending are neither changed nor read by what follows. -/
theorem drain_push_arith (a b : Nat) (hb : 0 < b) (value width v : Nat) (hv : v < 2 ^ a) :
    let left := width % b
    let kept := value % 2 ^ left * 2 ^ a + v
    let next := (left + a) % b
    (width + a) % b = next ∧ (value * 2 ^ a + v) % 2 ^ next = kept % 2 ^ next ∧
      Radix.fixed (2 ^ b) ((width + a) / b) ((value * 2 ^ a + v) / 2 ^ next) =
        Radix.fixed (2 ^ b) (width / b) (value / 2 ^ left) ++
          Radix.fixed (2 ^ b) ((left + a) / b) (kept / 2 ^ next) := by
  intro left kept next
  have hbase : 1 < 2 ^ b := Nat.one_lt_two_pow (by omega)
  have hwidth : width + a = left + a + b * (width / b) := by
    have := Nat.mod_add_div width b
    omega
  have hmod : (width + a) % b = next := by rw [hwidth, Nat.add_mul_mod_self_left]
  have hdiv : (width + a) / b = width / b + (left + a) / b := by
    rw [hwidth, Nat.add_mul_div_left _ _ hb, Nat.add_comm]
  have hsplit : left + a = b * ((left + a) / b) + next := (Nat.div_add_mod _ _).symm
  have hpow : 2 ^ (left + a) = (2 ^ b) ^ ((left + a) / b) * 2 ^ next := by
    rw [← pow_mul, ← pow_add, ← hsplit]
  -- the bits that stay pending and the new value are the low part of the new number
  have hvalue : value * 2 ^ a + v =
      value / 2 ^ left * (2 ^ b) ^ ((left + a) / b) * 2 ^ next + kept := by
    rw [Nat.mul_assoc, ← hpow]
    calc value * 2 ^ a + v = (value % 2 ^ left + 2 ^ left * (value / 2 ^ left)) * 2 ^ a + v := by
          rw [Nat.mod_add_div]
      _ = value / 2 ^ left * 2 ^ (left + a) + kept := by
          rw [pow_add]
          ring
  have hkept : kept / 2 ^ next < (2 ^ b) ^ ((left + a) / b) := by
    rw [Nat.div_lt_iff_lt_mul (Nat.two_pow_pos next), ← hpow, pow_add]
    have hlow : value % 2 ^ left + 1 ≤ 2 ^ left := Nat.mod_lt _ (Nat.two_pow_pos left)
    calc kept < value % 2 ^ left * 2 ^ a + 2 ^ a := Nat.add_lt_add_left hv _
      _ = (value % 2 ^ left + 1) * 2 ^ a := by ring
      _ ≤ 2 ^ left * 2 ^ a := Nat.mul_le_mul_right _ hlow
  have hquot : (value * 2 ^ a + v) / 2 ^ next =
      value / 2 ^ left * (2 ^ b) ^ ((left + a) / b) + kept / 2 ^ next := by
    rw [hvalue, Nat.add_comm, Nat.add_mul_div_right _ _ (Nat.two_pow_pos next), Nat.add_comm]
  refine ⟨hmod, ?_, ?_⟩
  · rw [hvalue, Nat.add_comm, Nat.add_mul_mod_self_right]
  · rw [hdiv, Radix.fixed_add, hquot, Radix.fixed_mul_add _ _ _ _ hbase]
    congr 2
    rw [Nat.add_comm, Nat.add_mul_div_right _ _ (Nat.pow_pos (Nat.two_pow_pos b)),
      Nat.div_eq_of_lt hkept, Nat.zero_add]

/-- Draining writes the high digits of the pending number and keeps its low bits. -/
theorem drain_eq (out : GroupWidth) (pending : Pending) :
    pending.drain out =
      ((Radix.fixed (2 ^ out.bits) (pending.width / out.bits)
          (pending.value / 2 ^ (pending.width % out.bits))).map UInt8.ofNat,
        ⟨pending.value % 2 ^ (pending.width % out.bits), pending.width % out.bits⟩) := by
  simp only [Pending.drain, Nat.one_shiftLeft, Nat.shiftRight_eq_div_pow]

theorem push_eq (into : GroupWidth) (pending : Pending) (value : UInt8) :
    pending.push into value =
      ⟨pending.value * 2 ^ into.bits + value.toNat, pending.width + into.bits⟩ := by
  rw [Pending.push, Nat.shiftLeft_eq]

/-- Draining may be put off until the next value has been read. -/
theorem drain_push (source target : GroupWidth) (pending : Pending) (value : UInt8)
    (h : value.toNat < 2 ^ source.bits) :
    (pending.push source value).drain target =
      ((pending.drain target).1 ++ (((pending.drain target).2.push source value).drain target).1,
        (((pending.drain target).2.push source value).drain target).2) := by
  obtain ⟨hmod, hrest, hgroups⟩ := drain_push_arith source.bits target.bits target.bits_pos
    pending.value pending.width value.toNat h
  simp only [drain_eq, push_eq, hmod, hrest, hgroups, List.map_append]

def Pending.pushAll (source : GroupWidth) (pending : Pending) (values : Bytes) : Pending :=
  values.foldl (Pending.push source) pending

/-- Values read one behind the other are digits of one number. -/
theorem pushAll_eq (source : GroupWidth) (pending : Pending) (values : Bytes) :
    pending.pushAll source values =
      ⟨pending.value * (2 ^ source.bits) ^ values.length +
        Radix.value (2 ^ source.bits) (values.map UInt8.toNat),
        pending.width + source.bits * values.length⟩ := by
  induction values generalizing pending with
  | nil => simp [Pending.pushAll]
  | cons value values ih =>
    have hstep : pending.pushAll source (value :: values) =
        (pending.push source value).pushAll source values := rfl
    rw [hstep, ih, push_eq, List.length_cons, List.map_cons, Radix.value_cons, List.length_map]
    congr 1
    · ring
    · ring

/-- Nothing changes when the groups that are complete by now wait for those still to come. -/
theorem regroupFrom_drain (source target : GroupWidth) (pad : Bool) (values : Bytes)
    (h : ∀ value ∈ values, value.toNat < 2 ^ source.bits) (pending : Pending) :
    (regroupFrom source target pad (pending.drain target).2 values).map
        ((pending.drain target).1 ++ ·) =
      ((((pending.pushAll source values).drain target).2.finish source target pad).map
        (((pending.pushAll source values).drain target).1 ++ ·)) := by
  -- one drain before the next value and one after it write the same groups as a single drain after
  induction values generalizing pending with
  | nil => rfl
  | cons value values ih =>
    obtain ⟨hvalue, hvalues⟩ := List.forall_mem_cons.mp h
    have hstep : pending.pushAll source (value :: values) =
        (pending.push source value).pushAll source values := rfl
    rw [hstep, ← ih hvalues, regroupFrom, Nat.one_shiftLeft, if_neg (Nat.not_le.mpr hvalue),
      drain_push source target pending value hvalue]
    generalize ((pending.drain target).2.push source value).drain target = drained
    obtain ⟨groups, left⟩ := drained
    simp only
    cases regroupFrom source target pad left values with
    | error fault => rfl
    | ok rest => exact congrArg Except.ok (List.append_assoc ..).symm

/-- The loop comes to every value, so one that is too large is found wherever it stands. -/
theorem regroupFrom_of_too_large (source target : GroupWidth) (pad : Bool) (values : Bytes)
    (h : ¬ ∀ value ∈ values, value.toNat < 2 ^ source.bits) (pending : Pending) :
    regroupFrom source target pad pending values = .error .invalidData := by
  induction values generalizing pending with
  | nil => exact absurd (by simp) h
  | cons value values ih =>
    rw [regroupFrom, Nat.one_shiftLeft]
    by_cases hvalue : 2 ^ source.bits ≤ value.toNat
    · rw [if_pos hvalue]
    · have hvalues : ¬ ∀ value ∈ values, value.toNat < 2 ^ source.bits := fun hall =>
        h (List.forall_mem_cons.mpr ⟨Nat.lt_of_not_le hvalue, hall⟩)
      rw [if_neg hvalue]
      simp only [ih hvalues]
      rfl

/-- Whole groups of the number that the values denote, and what the bits left over become. -/
theorem regroup_eq (source target : GroupWidth) (pad : Bool) (values : Bytes)
    (h : ∀ value ∈ values, value.toNat < 2 ^ source.bits) :
    regroup source target pad values =
      let pending : Pending :=
        ⟨Radix.value (2 ^ source.bits) (values.map UInt8.toNat), source.bits * values.length⟩
      ((pending.drain target).2.finish source target pad).map ((pending.drain target).1 ++ ·) := by
  have hstart : (⟨0, 0⟩ : Pending).drain target = ([], ⟨0, 0⟩) := by
    simp [Pending.drain, Radix.fixed]
  have hall := regroupFrom_drain source target pad values h ⟨0, 0⟩
  rw [hstart, pushAll_eq, Nat.zero_mul, Nat.zero_add, Nat.zero_add] at hall
  rw [← hall, regroup]
  cases regroupFrom source target pad ⟨0, 0⟩ values with
  | error fault => rfl
  | ok groups => rfl

theorem finish_unpadded_eq_ok_iff (source target : GroupWidth) (pending : Pending) (rest : Bytes) :
    pending.finish source target false = .ok rest ↔
      (pending.width < source.bits ∧ pending.value = 0) ∧ rest = [] := by
  rw [Pending.finish, if_neg Bool.false_ne_true]
  by_cases h : source.bits ≤ pending.width ∨ pending.value ≠ 0
  · rw [if_pos h]
    constructor
    · intro hrest
      cases hrest
    · rintro ⟨⟨hwidth, hvalue⟩, -⟩
      rcases h with h | h
      · omega
      · exact absurd hvalue h
  · rw [if_neg h, Except.ok.injEq]
    rw [not_or, Nat.not_le, not_not] at h
    exact ⟨fun hrest => ⟨h, hrest.symm⟩, fun hrest => hrest.2.symm⟩

/-- Without padding the bits left over have to be zeros and too few for another value. -/
theorem regroup_unpadded_eq_ok_iff (source target : GroupWidth) (values result : Bytes)
    (h : ∀ value ∈ values, value.toNat < 2 ^ source.bits) :
    regroup source target false values = .ok result ↔
      let n := Radix.value (2 ^ source.bits) (values.map UInt8.toNat)
      let left := source.bits * values.length % target.bits
      (left < source.bits ∧ n % 2 ^ left = 0) ∧
        result = (Radix.fixed (2 ^ target.bits) (source.bits * values.length / target.bits)
          (n / 2 ^ left)).map UInt8.ofNat := by
  rw [regroup_eq source target false values h, map_eq_ok_iff]
  simp only [finish_unpadded_eq_ok_iff, drain_eq]
  constructor
  · rintro ⟨rest, ⟨hleft, rfl⟩, rfl⟩
    exact ⟨hleft, List.append_nil _⟩
  · rintro ⟨hleft, rfl⟩
    exact ⟨[], ⟨hleft, rfl⟩, List.append_nil _⟩

def bitsOf (width : GroupWidth) (groups : Bytes) : List Nat :=
  groups.flatMap fun group => Radix.fixed 2 width.bits group.toNat

theorem value_groups_lt (width : GroupWidth) (groups : Bytes)
    (h : ∀ group ∈ groups, group.toNat < 2 ^ width.bits) :
    Radix.value (2 ^ width.bits) (groups.map UInt8.toNat) < 2 ^ (width.bits * groups.length) := by
  rw [pow_mul, ← List.length_map (f := UInt8.toNat)]
  refine Radix.value_lt _ width.one_lt_two_pow _ fun d hd => ?_
  obtain ⟨byte, hbyte, rfl⟩ := List.mem_map.mp hd
  exact h byte hbyte

/-- The bits of the groups are those of the number that the groups denote. -/
theorem bitsOf_eq (width : GroupWidth) (groups : Bytes)
    (h : ∀ group ∈ groups, group.toNat < 2 ^ width.bits) :
    bitsOf width groups = Radix.fixed 2 (width.bits * groups.length)
      (Radix.value (2 ^ width.bits) (groups.map UInt8.toNat)) := by
  induction groups with
  | nil => rfl
  | cons group groups ih =>
    obtain ⟨hgroup, hgroups⟩ := List.forall_mem_cons.mp h
    -- the number of the groups behind the first one has no bit above those groups
    have hlow := value_groups_lt width groups hgroups
    have hhigh : (group.toNat * 2 ^ (width.bits * groups.length) +
        Radix.value (2 ^ width.bits) (groups.map UInt8.toNat)) / 2 ^ (width.bits * groups.length) =
          group.toNat := by
      rw [Nat.add_comm, Nat.add_mul_div_right _ _ (Nat.two_pow_pos _), Nat.div_eq_of_lt hlow,
        Nat.zero_add]
    have hbits : bitsOf width (group :: groups) =
        Radix.fixed 2 width.bits group.toNat ++ bitsOf width groups := List.flatMap_cons
    rw [hbits, ih hgroups, List.map_cons, Radix.value_cons, List.length_map, ← pow_mul,
      List.length_cons, Nat.mul_succ, Nat.add_comm (width.bits * groups.length), Radix.fixed_add,
      Radix.fixed_mul_add _ _ _ _ (by decide), hhigh]

end BitcoinKeys.Bech32
