namespace BitcoinKeys

def nanosPerSecond : Nat := 1000000000

structure Duration where
  seconds : Nat
  nanos : Nat
  seconds_lt : seconds < UInt64.size
  nanos_lt : nanos < nanosPerSecond
deriving DecidableEq, Repr

namespace Duration

def zero : Duration := ⟨0, 0, by decide, by decide⟩

def ofNanos? (nanos : Nat) : Option Duration :=
  if h : nanos / nanosPerSecond < UInt64.size then
    some ⟨nanos / nanosPerSecond, nanos % nanosPerSecond, h, Nat.mod_lt _ (by decide)⟩
  else none

def toNanos (duration : Duration) : Nat := duration.seconds * nanosPerSecond + duration.nanos

/-- The seconds take 64 bits, and the nanoseconds never reach one second more. -/
theorem toNanos_lt (duration : Duration) : duration.toNanos < UInt64.size * nanosPerSecond := by
  have hseconds := Nat.mul_le_mul_right nanosPerSecond duration.seconds_lt
  have hnanos := duration.nanos_lt
  rw [Nat.succ_mul] at hseconds
  exact Nat.lt_of_lt_of_le (Nat.add_lt_add_left hnanos _) hseconds

def since (later earlier : Duration) : Duration :=
  let nanos := later.toNanos - earlier.toNanos
  have hnanos : nanos < nanosPerSecond * UInt64.size := by
    rw [Nat.mul_comm]
    exact Nat.lt_of_le_of_lt (Nat.sub_le ..) later.toNanos_lt
  ⟨nanos / nanosPerSecond, nanos % nanosPerSecond, Nat.div_lt_of_lt_mul hnanos,
    Nat.mod_lt _ (by decide)⟩

def ofParts? (seconds nanos : Nat) : Option Duration := ofNanos? (seconds * nanosPerSecond + nanos)

def roundHalfEven (numerator denominator : Nat) : Nat :=
  let quotient := numerator / denominator
  let twice := 2 * (numerator % denominator)
  if denominator < twice ∨ (twice = denominator ∧ quotient % 2 = 1) then quotient + 1 else quotient

/-- The significand of a finite floating point number and 1074 more than its exponent of two. -/
def decompose (x : Float) : Nat × Nat :=
  let bits := x.toBits.toNat % (1 <<< 63)
  let exponent := bits >>> 52
  let fraction := bits % (1 <<< 52)
  if exponent = 0 then (fraction, 0) else (fraction + (1 <<< 52), exponent - 1)

/-- The span nearest to a number of seconds that is finite and not negative, unless it has too many
seconds. -/
def ofSeconds? (x : Float) : Option Duration :=
  let (significand, exponent) := decompose x
  ofNanos? (roundHalfEven ((significand * nanosPerSecond) <<< exponent) (1 <<< 1074))

def toSeconds (duration : Duration) : Float :=
  (UInt64.ofNat duration.seconds).toFloat + (UInt64.ofNat duration.nanos).toFloat / 1e9

end Duration
end BitcoinKeys
