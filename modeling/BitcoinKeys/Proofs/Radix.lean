import BitcoinKeys.Radix
import Mathlib.Data.List.TakeWhile
import Mathlib.Data.Nat.Digits.Lemmas
import Mathlib.Tactic.Ring

/-! Digit lists and the numbers they denote. A pass over a register is multiplication of the number in
it, and changing the base of a digit list, leading zeros kept, is undone by changing it back. -/
namespace BitcoinKeys.Radix

theorem value_eq_ofDigits (base : Nat) (digits : List Nat) :
    value base digits = Nat.ofDigits base digits.reverse := by
  -- reading from the left takes the last digit last, so the induction goes from the right
  induction digits using List.reverseRecOn with
  | nil => rfl
  | append_singleton digits digit ih =>
    have hstep : value base (digits ++ [digit]) = value base digits * base + digit := by
      simp only [value, List.foldl_append, List.foldl_cons, List.foldl_nil]
    rw [hstep, ih, List.reverse_append, List.reverse_singleton, List.singleton_append,
      Nat.ofDigits_cons]
    ring

@[simp] theorem value_nil (base : Nat) : value base [] = 0 := rfl

theorem value_append (base : Nat) (high low : List Nat) :
    value base (high ++ low) = value base high * base ^ low.length + value base low := by
  rw [value_eq_ofDigits, value_eq_ofDigits, value_eq_ofDigits, List.reverse_append,
    Nat.ofDigits_append, List.length_reverse]
  ring

theorem value_singleton (base digit : Nat) : value base [digit] = digit := by
  rw [value_eq_ofDigits, List.reverse_singleton, Nat.ofDigits_singleton]

theorem value_cons (base digit : Nat) (digits : List Nat) :
    value base (digit :: digits) = digit * base ^ digits.length + value base digits := by
  rw [← List.singleton_append, value_append, value_singleton]

theorem value_lt (base : Nat) (hb : 1 < base) (digits : List Nat) (h : ∀ d ∈ digits, d < base) :
    value base digits < base ^ digits.length := by
  rw [value_eq_ofDigits, ← List.length_reverse]
  exact Nat.ofDigits_lt_base_pow_length hb fun d hd => h d (List.mem_reverse.mp hd)

/-- The first digit bounds the number on both sides. -/
theorem value_cons_bounds (base : Nat) (hb : 1 < base) (digit : Nat) (digits : List Nat)
    (h : ∀ d ∈ digits, d < base) :
    digit * base ^ digits.length ≤ value base (digit :: digits) ∧
      value base (digit :: digits) < (digit + 1) * base ^ digits.length := by
  have hlt := value_lt base hb digits h
  rw [value_cons, Nat.succ_mul]
  omega

/-- Digit lists of one length are told apart by their numbers. -/
theorem value_injective_of_length (base : Nat) (hb : 1 < base) (xs ys : List Nat)
    (hl : xs.length = ys.length) (hx : ∀ d ∈ xs, d < base) (hy : ∀ d ∈ ys, d < base)
    (h : value base xs = value base ys) : xs = ys := by
  rw [value_eq_ofDigits, value_eq_ofDigits] at h
  have hr : xs.reverse = ys.reverse := by
    refine Nat.ofDigits_inj_of_len_eq hb ?_ ?_ ?_ h
    · rw [List.length_reverse, List.length_reverse, hl]
    · exact fun d hd => hx d (List.mem_reverse.mp hd)
    · exact fun d hd => hy d (List.mem_reverse.mp hd)
  exact List.reverse_injective hr

theorem value_replicate_zero (base count : Nat) : value base (List.replicate count 0) = 0 := by
  induction count with
  | zero => rfl
  | succ count ih => rw [List.replicate_succ, value_cons, ih, Nat.zero_mul]

/-- Zeros on top do not count. -/
theorem value_dropWhile_zero (base : Nat) (digits : List Nat) :
    value base (digits.dropWhile (· = 0)) = value base digits := by
  induction digits with
  | nil => rfl
  | cons digit digits ih =>
    by_cases h : digit = 0
    · rw [List.dropWhile_cons_of_pos (by simpa using h), ih, value_cons, h, Nat.zero_mul,
        Nat.zero_add]
    · rw [List.dropWhile_cons_of_neg (by simpa using h)]

theorem leastFirst_eq_digits (base n : Nat) (hb : 1 < base) :
    leastFirst base n = Nat.digits base n := by
  -- each step divides the number, so a limit that is no less than the number is never reached
  have hlow (limit : Nat) : ∀ n ≤ limit, lowDigits base limit n = Nat.digits base n := by
    induction limit with
    | zero =>
      intro n hn
      rw [Nat.le_zero.mp hn, Nat.digits_zero]
      rfl
    | succ limit ih =>
      intro n hn
      by_cases hz : n = 0
      · rw [hz, Nat.digits_zero]
        rfl
      · have hlt : n / base < n := Nat.div_lt_self (Nat.pos_of_ne_zero hz) hb
        rw [lowDigits, if_neg hz, ih _ (by omega), Nat.digits_def' hb (Nat.pos_of_ne_zero hz)]
  exact hlow n n le_rfl

theorem leastFirst_zero (base : Nat) : leastFirst base 0 = [] := rfl

theorem leastFirst_pos (base n : Nat) (hb : 1 < base) (hn : 0 < n) :
    leastFirst base n = n % base :: leastFirst base (n / base) := by
  rw [leastFirst_eq_digits base n hb, leastFirst_eq_digits base _ hb, Nat.digits_def' hb hn]

theorem digits_zero (base : Nat) : digits base 0 = [] := rfl

theorem digits_pos (base n : Nat) (hb : 1 < base) (hn : 0 < n) :
    digits base n = digits base (n / base) ++ [n % base] := by
  rw [digits, leastFirst_pos base n hb hn, List.reverse_cons, digits]

theorem value_digits (base n : Nat) (hb : 1 < base) : value base (digits base n) = n := by
  rw [value_eq_ofDigits, digits, List.reverse_reverse, leastFirst_eq_digits base n hb,
    Nat.ofDigits_digits]

theorem digits_lt (base n : Nat) (hb : 1 < base) : ∀ d ∈ digits base n, d < base := by
  intro d hd
  rw [digits, List.mem_reverse, leastFirst_eq_digits base n hb] at hd
  exact Nat.digits_lt_base hb hd

/-- A number has the fewest digits that it fits in. -/
theorem length_digits_le_iff (base width n : Nat) (hb : 1 < base) :
    (digits base n).length ≤ width ↔ n < base ^ width := by
  rw [digits, List.length_reverse, leastFirst_eq_digits base n hb, Nat.digits_length_le_iff hb]

theorem head_digits_ne_zero (base n : Nat) (hb : 1 < base) (h : digits base n ≠ []) :
    (digits base n).head h ≠ 0 := by
  have hl : Nat.digits base n ≠ [] := by
    simpa only [digits, leastFirst_eq_digits base n hb, ne_eq, List.reverse_eq_nil_iff] using h
  have hn : n ≠ 0 := by
    rintro rfl
    exact hl (Nat.digits_zero base)
  simpa only [digits, leastFirst_eq_digits base n hb, List.head_reverse] using
    Nat.getLast_digit_ne_zero base hn

/-- The digits of the number that a digit list denotes are that list without its leading zeros. -/
theorem digits_value (base : Nat) (hb : 1 < base) (ds : List Nat) (h : ∀ d ∈ ds, d < base) :
    digits base (value base ds) = ds.dropWhile (· = 0) := by
  -- without the zeros on top the list is in the form that `Nat.digits` is inverse to
  have hlt : ∀ d ∈ (ds.dropWhile (· = 0)).reverse, d < base := by
    intro d hd
    exact h d ((List.dropWhile_suffix _).subset (List.mem_reverse.mp hd))
  have htop (hn : (ds.dropWhile (· = 0)).reverse ≠ []) :
      (ds.dropWhile (· = 0)).reverse.getLast hn ≠ 0 := by
    rw [List.getLast_reverse]
    have hh := List.head_dropWhile_not (· = 0) (List.reverse_ne_nil_iff.mp hn)
    exact of_decide_eq_false hh
  rw [digits, leastFirst_eq_digits base _ hb, ← value_dropWhile_zero, value_eq_ofDigits,
    Nat.digits_ofDigits base hb _ hlt htop, List.reverse_reverse]

theorem takeWhile_zero_eq_replicate (ds : List Nat) :
    ds.takeWhile (· = 0) = List.replicate (ds.takeWhile (· = 0)).length 0 :=
  List.eq_replicate_iff.mpr ⟨rfl, fun d hd => by simpa using List.mem_takeWhile_imp hd⟩

/-- A digit list is the digits of its number behind zeros. -/
theorem replicate_append_digits_value (base : Nat) (hb : 1 < base) (ds : List Nat)
    (h : ∀ d ∈ ds, d < base) :
    List.replicate (ds.takeWhile (· = 0)).length 0 ++ digits base (value base ds) = ds := by
  rw [digits_value base hb ds h, ← takeWhile_zero_eq_replicate, List.takeWhile_append_dropWhile]

theorem fixed_cons (base width n : Nat) :
    fixed base (width + 1) n = n / base ^ width % base :: fixed base width n := rfl

@[simp] theorem length_fixed (base width n : Nat) : (fixed base width n).length = width := by
  induction width with
  | zero => rfl
  | succ width ih => rw [fixed_cons, List.length_cons, ih]

theorem fixed_lt (base width n : Nat) (hb : 0 < base) : ∀ d ∈ fixed base width n, d < base := by
  induction width with
  | zero => intro d hd; simp [fixed] at hd
  | succ width ih =>
    intro d hd
    rcases List.mem_cons.mp hd with rfl | hd
    · exact Nat.mod_lt _ hb
    · exact ih d hd

theorem value_fixed (base width n : Nat) : value base (fixed base width n) = n % base ^ width := by
  induction width with
  | zero => rw [fixed, value_nil, pow_zero, Nat.mod_one]
  | succ width ih =>
    rw [fixed_cons, value_cons, ih, length_fixed, Nat.mod_pow_succ, Nat.mul_comm, Nat.add_comm]

/-- A list of digits is recovered from its number and its length. -/
theorem fixed_value (base : Nat) (hb : 1 < base) (ds : List Nat) (h : ∀ d ∈ ds, d < base) :
    fixed base ds.length (value base ds) = ds := by
  refine value_injective_of_length base hb _ _ (length_fixed ..) (fixed_lt _ _ _ (by omega)) h ?_
  rw [value_fixed, Nat.mod_eq_of_lt (value_lt base hb ds h)]

/-- The high digits are those of the quotient. -/
theorem fixed_add (base high low n : Nat) :
    fixed base (high + low) n = fixed base high (n / base ^ low) ++ fixed base low n := by
  induction high with
  | zero => rw [Nat.zero_add, fixed, List.nil_append]
  | succ high ih =>
    rw [Nat.succ_add, fixed_cons, ih, fixed_cons, List.cons_append, Nat.div_div_eq_div_mul, ← pow_add,
      Nat.add_comm low high]

theorem fixed_succ (base width n : Nat) :
    fixed base (width + 1) n = fixed base width (n / base) ++ [n % base] := by
  rw [fixed_add, pow_one]
  simp [fixed]

/-- Digits above the width do not count. -/
theorem fixed_mul_add (base width m n : Nat) (hb : 1 < base) :
    fixed base width (m * base ^ width + n) = fixed base width n := by
  refine value_injective_of_length base hb _ _ ?_ (fixed_lt _ _ _ (by omega))
    (fixed_lt _ _ _ (by omega)) ?_
  · rw [length_fixed, length_fixed]
  · rw [value_fixed, value_fixed, Nat.add_comm, Nat.add_mul_mod_self_right]

theorem fixed_mod (base width n : Nat) (hb : 1 < base) :
    fixed base width (n % base ^ width) = fixed base width n := by
  conv_rhs => rw [← Nat.div_add_mod' n (base ^ width), fixed_mul_add _ _ _ _ hb]

theorem fixed_inj (base : Nat) {width m n : Nat} (hm : m < base ^ width) (hn : n < base ^ width) :
    fixed base width m = fixed base width n ↔ m = n := by
  refine ⟨fun h => ?_, fun h => congrArg _ h⟩
  have hvalue := congrArg (value base) h
  rwa [value_fixed, value_fixed, Nat.mod_eq_of_lt hm, Nat.mod_eq_of_lt hn] at hvalue

/-- Without the zeros on top a fixed width makes no difference. -/
theorem dropWhile_fixed (base width n : Nat) (hb : 1 < base) (hn : n < base ^ width) :
    (fixed base width n).dropWhile (· = 0) = digits base n := by
  rw [← digits_value base hb _ (fixed_lt _ _ _ (by omega)), value_fixed, Nat.mod_eq_of_lt hn]

/-- Between two powers of the base the first digit is the quotient by the lower one. -/
theorem digits_of_bounds (base width n : Nat) (hb : 1 < base) (hlow : base ^ width ≤ n)
    (hhigh : n < base ^ (width + 1)) :
    digits base n = n / base ^ width :: fixed base width n := by
  have hpow : 0 < base ^ width := Nat.pow_pos (by omega)
  have htop : n / base ^ width % base = n / base ^ width := by
    apply Nat.mod_eq_of_lt
    rw [Nat.div_lt_iff_lt_mul hpow, Nat.mul_comm, ← pow_succ]
    exact hhigh
  have hne : n / base ^ width ≠ 0 := (Nat.div_pos hlow hpow).ne'
  rw [← dropWhile_fixed base (width + 1) n hb hhigh, fixed_cons, htop,
    List.dropWhile_cons_of_neg (by simpa using hne)]

theorem fixed_zero (base width : Nat) : fixed base width 0 = List.replicate width 0 := by
  induction width with
  | zero => rfl
  | succ width ih => rw [fixed_cons, ih, Nat.zero_div, Nat.zero_mod, List.replicate_succ]

/-- A power of the base as a factor appends zeros. -/
theorem fixed_mul_pow (base width zeros n : Nat) (hb : 1 < base) :
    fixed base (width + zeros) (n * base ^ zeros) =
      fixed base width n ++ List.replicate zeros 0 := by
  have hlow := fixed_mul_add base zeros n 0 hb
  rw [Nat.add_zero] at hlow
  rw [fixed_add, Nat.mul_div_cancel _ (Nat.pow_pos (by omega)), hlow, fixed_zero]

/-- The last digits are zeros exactly if that power of the base divides the number. -/
theorem replicate_suffix_fixed_iff (base width zeros n : Nat) (hb : 1 < base) :
    List.replicate zeros 0 <:+ fixed base (width + zeros) n ↔ n % base ^ zeros = 0 := by
  rw [fixed_add]
  constructor
  · rintro ⟨front, h⟩
    have hlow := (List.append_inj' h (by rw [length_fixed, List.length_replicate])).2
    have hvalue := congrArg (value base) hlow
    rwa [value_fixed, value_replicate_zero, eq_comm] at hvalue
  · intro h
    have hlow := fixed_mod base zeros n hb
    rw [h, fixed_zero] at hlow
    exact ⟨_, congrArg _ hlow⟩

/-- What one digit of a pass keeps and carries on are the remainder and the quotient of the whole
product. -/
theorem pass_step (base factor n carry : Nat) (hb : 0 < base) :
    (n % base * factor + carry) % base = (n * factor + carry) % base ∧
      n / base * factor + (n % base * factor + carry) / base = (n * factor + carry) / base := by
  have hsplit : n * factor + carry = n % base * factor + carry + base * (n / base * factor) := by
    calc n * factor + carry = (n % base + base * (n / base)) * factor + carry := by
          rw [Nat.mod_add_div]
      _ = n % base * factor + carry + base * (n / base * factor) := by ring
  rw [hsplit, Nat.add_mul_mod_self_left, Nat.add_mul_div_left _ _ hb]
  exact ⟨rfl, Nat.add_comm _ _⟩

/-- A pass over a register of fixed width multiplies its number, modulo the capacity. -/
theorem mulAdd_fixed (base factor width n carry : Nat) (hb : 0 < base) :
    mulAdd base factor (fixed base width n).reverse carry =
      (fixed base width (n * factor + carry)).reverse := by
  induction width generalizing n carry with
  | zero => rfl
  | succ width ih =>
    obtain ⟨hmod, hdiv⟩ := pass_step base factor n carry hb
    rw [fixed_succ, fixed_succ, List.reverse_append, List.reverse_append, List.reverse_singleton,
      List.reverse_singleton, List.singleton_append, List.singleton_append, mulAdd, ih, hmod, hdiv]

/-- A pass over a register that may grow multiplies its number. -/
theorem mulAddGrow_leastFirst (base factor n carry : Nat) (hb : 1 < base) (hf : 0 < factor) :
    mulAddGrow base factor (leastFirst base n) carry = leastFirst base (n * factor + carry) := by
  -- the digits above the lowest are those of the quotient, and they take its carry
  induction n using Nat.strong_induction_on generalizing carry with
  | _ n ih =>
    rcases Nat.eq_zero_or_pos n with rfl | hn
    · rw [leastFirst_zero, Nat.zero_mul, Nat.zero_add]
      rfl
    · have hp : 0 < n * factor + carry := Nat.add_pos_left (Nat.mul_pos hn hf) carry
      have hrest := ih (n / base) (Nat.div_lt_self hn hb) ((n % base * factor + carry) / base)
      obtain ⟨hmod, hdiv⟩ := pass_step base factor n carry (by omega)
      rw [mulAddGrow] at hrest
      rw [leastFirst_pos base n hb hn, leastFirst_pos base _ hb hp, mulAddGrow, mulAdd, carryOut,
        List.cons_append, hrest, hmod, hdiv]

/-- The products, each with the carry added to it, that a pass takes apart into a digit and the next
carry. -/
def totals (base factor : Nat) : List Nat → Nat → List Nat
  | [], _ => []
  | digit :: above, carry =>
    (digit * factor + carry) :: totals base factor above ((digit * factor + carry) / base)

/-- The largest digit and the largest carry do not reach the product of the base and the factor,
so the carry stays below the factor. -/
theorem total_lt {base factor digit carry : Nat} (hd : digit < base) (hc : carry < factor) :
    digit * factor + carry < base * factor ∧ (digit * factor + carry) / base < factor := by
  have hlt : digit * factor + carry < base * factor := by
    calc digit * factor + carry < digit * factor + factor := Nat.add_lt_add_left hc _
      _ = (digit + 1) * factor := (Nat.succ_mul ..).symm
      _ ≤ base * factor := Nat.mul_le_mul_right factor hd
  exact ⟨hlt, Nat.div_lt_of_lt_mul hlt⟩

/-- No product of a pass is larger than that of one digit, however long the register is. -/
theorem totals_lt {base factor : Nat} {register : List Nat} {carry : Nat}
    (hr : ∀ digit ∈ register, digit < base) (hc : carry < factor) :
    (∀ total ∈ totals base factor register carry, total < base * factor) ∧
      carryOut base factor register carry < factor := by
  induction register generalizing carry with
  | nil => exact ⟨by simp [totals], hc⟩
  | cons digit above ih =>
    obtain ⟨hdigit, habove⟩ := List.forall_mem_cons.mp hr
    obtain ⟨hlt, hnext⟩ := total_lt hdigit hc
    obtain ⟨htotals, hout⟩ := ih habove hnext
    exact ⟨List.forall_mem_cons.mpr ⟨hlt, htotals⟩, hout⟩

/-- A pass loses nothing: the register behind it and the carry out of its top digit make up the
product. -/
theorem mulAdd_add_carryOut (base factor : Nat) (register : List Nat) (carry : Nat) :
    Nat.ofDigits base (mulAdd base factor register carry) +
        carryOut base factor register carry * base ^ register.length =
      Nat.ofDigits base register * factor + carry := by
  induction register generalizing carry with
  | nil => simp [mulAdd, carryOut]
  | cons digit above ih =>
    have hsplit := Nat.mod_add_div (digit * factor + carry) base
    have habove := ih ((digit * factor + carry) / base)
    rw [mulAdd, carryOut, Nat.ofDigits_cons, Nat.ofDigits_cons, List.length_cons, pow_succ']
    calc (digit * factor + carry) % base +
          base * Nat.ofDigits base (mulAdd base factor above ((digit * factor + carry) / base)) +
          carryOut base factor above ((digit * factor + carry) / base) * (base * base ^ above.length)
        = (digit * factor + carry) % base +
          base * (Nat.ofDigits base (mulAdd base factor above ((digit * factor + carry) / base)) +
            carryOut base factor above ((digit * factor + carry) / base) * base ^ above.length) := by
          ring
      _ = (digit * factor + carry) % base + base * ((digit * factor + carry) / base) +
          base * (Nat.ofDigits base above * factor) := by
          rw [habove]
          ring
      _ = (digit + base * Nat.ofDigits base above) * factor + carry := by
          rw [hsplit]
          ring

/-- A product that fits in the register leaves no carry. -/
theorem carryOut_eq_zero {base factor : Nat} {register : List Nat} {carry : Nat}
    (h : Nat.ofDigits base register * factor + carry < base ^ register.length) :
    carryOut base factor register carry = 0 := by
  have hpass := mulAdd_add_carryOut base factor register carry
  by_contra hne
  have hout := Nat.le_mul_of_pos_left (base ^ register.length) (Nat.pos_of_ne_zero hne)
  omega

/-- The digits of the same number in another base, behind as many zeros as stood on top before. -/
def rebase (source target : Nat) (ds : List Nat) : List Nat :=
  ds.takeWhile (· = 0) ++ digits target (value source ds)

theorem rebase_lt (source target : Nat) (ht : 1 < target) (ds : List Nat) :
    ∀ d ∈ rebase source target ds, d < target := by
  intro d hd
  rcases List.mem_append.mp hd with hd | hd
  · have hz : d = 0 := by simpa using List.mem_takeWhile_imp hd
    omega
  · exact digits_lt target _ ht d hd

/-- A change of base keeps the number. -/
theorem value_rebase (source target : Nat) (ht : 1 < target) (ds : List Nat) :
    value target (rebase source target ds) = value source ds := by
  rw [rebase, value_append, takeWhile_zero_eq_replicate, value_replicate_zero, Nat.zero_mul,
    Nat.zero_add, value_digits target _ ht]

/-- No further zero follows those kept from the list before. -/
theorem takeWhile_rebase (source target : Nat) (ht : 1 < target) (ds : List Nat) :
    (rebase source target ds).takeWhile (· = 0) = ds.takeWhile (· = 0) := by
  -- the digits behind the zeros start with one that is not zero, if there are any
  have hnone : (digits target (value source ds)).takeWhile (· = 0) = [] := by
    cases hd : digits target (value source ds) with
    | nil => rfl
    | cons d rest =>
      have hne := head_digits_ne_zero target (value source ds) ht (by simp [hd])
      simp only [hd, List.head_cons] at hne
      exact List.takeWhile_cons_of_neg (by simpa using hne)
  have hzero : ∀ d ∈ ds.takeWhile (· = 0), decide (d = 0) = true :=
    fun d hd => List.mem_takeWhile_imp (p := fun d => decide (d = 0)) hd
  rw [rebase, List.takeWhile_append_of_pos hzero, hnone, List.append_nil]

/-- A change of base is undone by the change back, because the zeros on top are kept one for
one. -/
theorem rebase_rebase (source target : Nat) (hs : 1 < source) (ht : 1 < target) (ds : List Nat)
    (h : ∀ d ∈ ds, d < source) : rebase target source (rebase source target ds) = ds := by
  rw [rebase, takeWhile_rebase source target ht, value_rebase source target ht,
    digits_value source hs ds h, List.takeWhile_append_dropWhile]

end BitcoinKeys.Radix
