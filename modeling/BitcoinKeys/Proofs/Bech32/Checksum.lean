import BitcoinKeys.Bech32.Checksum
import BitcoinKeys.Proofs.Radix
import Mathlib.Data.Nat.Bitwise

/-! The register is linear in exclusive or, and the last six symbols pass through it without feedback.
Hence exactly one choice of them leaves the remainder one. -/
namespace BitcoinKeys.Bech32

theorem feedback_xor (a b : Symbol) : feedback (a ^^^ b) = feedback a ^^^ feedback b := by
  have hfold (steps : List (Remainder × Nat)) : ∀ x y : Remainder,
      steps.foldl (fun total step =>
        if (a ^^^ b).getLsbD step.2 then total ^^^ step.1 else total) (x ^^^ y) =
      steps.foldl (fun total step =>
        if a.getLsbD step.2 then total ^^^ step.1 else total) x ^^^
      steps.foldl (fun total step =>
        if b.getLsbD step.2 then total ^^^ step.1 else total) y := by
    induction steps with
    | nil => intro x y; rfl
    | cons step steps ih =>
      intro x y
      obtain ⟨generator, i⟩ := step
      simp only [List.foldl_cons, ← ih, BitVec.getLsbD_xor]
      -- where both bits are set the generator cancels
      congr 1
      cases a.getLsbD i <;> cases b.getLsbD i
      · rfl
      · simp only [Bool.false_xor, Bool.false_eq_true, if_true, if_false, BitVec.xor_assoc]
      · simp only [Bool.xor_false, Bool.false_eq_true, if_true, if_false]
        rw [BitVec.xor_assoc, BitVec.xor_assoc, BitVec.xor_comm y]
      · simp only [Bool.xor_true, Bool.not_true, Bool.false_eq_true, if_true, if_false]
        rw [BitVec.xor_assoc, ← BitVec.xor_assoc generator, BitVec.xor_comm generator y,
          BitVec.xor_assoc y, BitVec.xor_self, BitVec.xor_zero]
  exact hfold generators.zipIdx 0 0

/-- The register is linear over bits. -/
theorem push_xor (x y : Remainder) (a b : Symbol) :
    (x ^^^ y).push (a ^^^ b) = x.push a ^^^ y.push b := by
  simp only [Remainder.push, BitVec.extractLsb'_xor, feedback_xor, ← BitVec.xor_append]
  generalize x.extractLsb' 0 25 ++ a = p
  generalize y.extractLsb' 0 25 ++ b = q
  generalize feedback (x.extractLsb' 25 5) = f
  generalize feedback (y.extractLsb' 25 5) = g
  rw [BitVec.xor_assoc, BitVec.xor_assoc, ← BitVec.xor_assoc q, BitVec.xor_comm q f,
    BitVec.xor_assoc]

/-- What the start of the register and what the symbols contribute can be computed apart. -/
theorem foldl_push_xor (symbols : List Symbol) (x y : Remainder) :
    symbols.foldl Remainder.push (x ^^^ y) =
      (List.replicate symbols.length 0).foldl Remainder.push x ^^^
        symbols.foldl Remainder.push y := by
  induction symbols generalizing x y with
  | nil => rfl
  | cons symbol symbols ih =>
    have hzero : (0 : Symbol) ^^^ symbol = symbol := BitVec.zero_xor
    have hpush := push_xor x y 0 symbol
    rw [hzero] at hpush
    rw [List.foldl_cons, hpush, ih, List.length_cons, List.replicate_succ, List.foldl_cons,
      List.foldl_cons]

/-- Below six symbols nothing leaves the register on top. -/
theorem toNat_push (x : Remainder) (symbol : Symbol) (h : x.toNat < 32 ^ 5) :
    (x.push symbol).toNat = x.toNat * 32 + symbol.toNat := by
  have htop : x.extractLsb' 25 5 = 0 := by
    apply BitVec.eq_of_toNat_eq
    rw [BitVec.extractLsb'_toNat, Nat.shiftRight_eq_div_pow, Nat.div_eq_of_lt (by omega)]
    rfl
  have hlow : (x.extractLsb' 0 25).toNat = x.toNat := by
    rw [BitVec.extractLsb'_toNat, Nat.shiftRight_zero, Nat.mod_eq_of_lt (by omega)]
  have hfeedback : feedback 0 = 0#30 := by decide
  have hsymbol : symbol.toNat < 2 ^ 5 := symbol.isLt
  rw [Remainder.push, htop, hfeedback, BitVec.xor_zero, BitVec.toNat_append, hlow,
    ← Nat.shiftLeft_add_eq_or_of_lt hsymbol, Nat.shiftLeft_eq]

/-- Up to six symbols stand in the register side by side. -/
theorem toNat_foldl_push (symbols : List Symbol) (width : Nat) (x : Remainder)
    (hx : x.toNat < 32 ^ width) (hw : width + symbols.length ≤ 6) :
    (symbols.foldl Remainder.push x).toNat =
      x.toNat * 32 ^ symbols.length + Radix.value 32 (symbols.map BitVec.toNat) := by
  induction symbols generalizing width x with
  | nil => rw [List.foldl_nil, List.length_nil, pow_zero, Nat.mul_one]; rfl
  | cons symbol symbols ih =>
    rw [List.length_cons] at hw
    have hlow : x.toNat < 32 ^ 5 :=
      hx.trans_le (Nat.pow_le_pow_right (by decide) (by omega))
    have hsymbol : symbol.toNat < 32 := symbol.isLt
    have hpush := toNat_push x symbol hlow
    have hnext : (x.push symbol).toNat < 32 ^ (width + 1) := by
      rw [hpush, pow_succ]
      omega
    rw [List.foldl_cons, ih (width + 1) _ hnext (by omega), hpush, List.map_cons,
      Radix.value_cons, List.length_map, List.length_cons]
    ring

theorem map_toNat_lt (symbols : List Symbol) : ∀ d ∈ symbols.map BitVec.toNat, d < 32 := by
  intro d hd
  obtain ⟨symbol, _, rfl⟩ := List.mem_map.mp hd
  exact symbol.isLt

theorem map_toNat_injective : Function.Injective (List.map (BitVec.toNat : Symbol → Nat)) :=
  List.map_injective_iff.mpr fun _ _ => BitVec.eq_of_toNat_eq

/-- Reading six symbols off the register. -/
theorem map_toNat_extract (register : Remainder) :
    ([25, 20, 15, 10, 5, 0].map fun low => register.extractLsb' low 5).map BitVec.toNat =
      Radix.fixed 32 6 register.toNat := by
  simp [Radix.fixed, BitVec.extractLsb'_toNat, Nat.shiftRight_eq_div_pow]

/-- The only six symbols that complete a part and its data are those of the checksum. -/
theorem checksumHolds_append_iff (part : List Char) (data last : List Symbol)
    (h : last.length = 6) :
    checksumHolds part (data ++ last) = true ↔ last = checksum part data := by
  set front := remainder (expand part ++ data) with hfront
  have hzeros : remainder (expand part ++ data ++ List.replicate 6 0) =
      (List.replicate 6 0).foldl Remainder.push front := by
    rw [hfront, remainder, List.foldl_append, remainder]
  -- by linearity the last symbols are added to what six zeros in their place would give
  have hlast : remainder (expand part ++ (data ++ last)) =
      (List.replicate 6 0).foldl Remainder.push front ^^^ last.foldl Remainder.push 0 := by
    have hxor := foldl_push_xor last front 0
    rw [h] at hxor
    rw [← hxor, ← List.append_assoc, remainder, List.foldl_append]
    rw [show front ^^^ (0 : Remainder) = front from BitVec.xor_zero]
    rfl
  have hvalue : (last.foldl Remainder.push 0).toNat = Radix.value 32 (last.map BitVec.toNat) := by
    rw [toNat_foldl_push last 0 0 (by decide) (by omega)]
    simp
  rw [checksumHolds, decide_eq_true_iff, hlast, checksum, hzeros]
  generalize (List.replicate 6 (0 : Symbol)).foldl Remainder.push front = register
  -- the remainder is one exactly if the last symbols, read as a number, are the register up to one
  have hsolve : register ^^^ last.foldl Remainder.push 0 = 1 ↔
      last.foldl Remainder.push 0 = register ^^^ 1 := by
    constructor
    · intro hh
      rw [← hh, ← BitVec.xor_assoc, BitVec.xor_self, BitVec.zero_xor]
    · intro hh
      rw [hh, ← BitVec.xor_assoc, BitVec.xor_self, BitVec.zero_xor]
  rw [hsolve, ← BitVec.toNat_inj, hvalue]
  constructor
  · intro hh
    apply map_toNat_injective
    rw [map_toNat_extract, ← hh]
    have hfixed := Radix.fixed_value 32 (by decide) _ (map_toNat_lt last)
    rw [List.length_map, h] at hfixed
    exact hfixed.symm
  · intro hh
    have hlt : (register ^^^ 1).toNat < 32 ^ 6 := (register ^^^ 1).isLt
    rw [hh, map_toNat_extract, Radix.value_fixed, Nat.mod_eq_of_lt hlt]

theorem checksumHolds_iff_drop (part : List Char) (all : List Symbol) (h : 6 ≤ all.length) :
    checksumHolds part all = true ↔
      all.drop (all.length - 6) = checksum part (all.take (all.length - 6)) := by
  have hlast : (all.drop (all.length - 6)).length = 6 := by
    rw [List.length_drop]
    omega
  rw [← checksumHolds_append_iff part _ _ hlast, List.take_append_drop]

@[simp] theorem length_checksum (part : List Char) (data : List Symbol) :
    (checksum part data).length = 6 := rfl

end BitcoinKeys.Bech32
