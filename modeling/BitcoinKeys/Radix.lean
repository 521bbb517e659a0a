/-!
Positional numerals: the number a list of digits denotes, the digits of a number, and a register of
digits that is multiplied in place. Bases 10, 58 and 256 all go through these definitions.
-/
namespace BitcoinKeys.Radix

def value (base : Nat) (digits : List Nat) : Nat :=
  digits.foldl (fun total digit => total * base + digit) 0

def fixed (base : Nat) : Nat → Nat → List Nat
  | 0, _ => []
  | width + 1, n => n / Nat.pow base width % base :: fixed base width n

def lowDigits (base : Nat) : Nat → Nat → List Nat
  | 0, _ => []
  | limit + 1, n => if n = 0 then [] else n % base :: lowDigits base limit (n / base)

/-- The digits of `n`, least significant first and without a zero on top. In base two or more a
number has at most as many digits as its value, so the limit cuts nothing off. -/
def leastFirst (base n : Nat) : List Nat := lowDigits base n n

def digits (base n : Nat) : List Nat := (leastFirst base n).reverse

/-- One pass over a register, least significant digit first: every digit is multiplied and takes
the carry of the digit below. The width stays; a carry out of the top digit is dropped. -/
def mulAdd (base factor : Nat) : List Nat → Nat → List Nat
  | [], _ => []
  | digit :: above, carry =>
    (digit * factor + carry) % base :: mulAdd base factor above ((digit * factor + carry) / base)

def carryOut (base factor : Nat) : List Nat → Nat → Nat
  | [], carry => carry
  | digit :: above, carry => carryOut base factor above ((digit * factor + carry) / base)

def mulAddGrow (base factor : Nat) (register : List Nat) (carry : Nat) : List Nat :=
  mulAdd base factor register carry ++ leastFirst base (carryOut base factor register carry)

end BitcoinKeys.Radix
