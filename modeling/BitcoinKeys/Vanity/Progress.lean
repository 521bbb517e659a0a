import BitcoinKeys.Duration

namespace BitcoinKeys.Vanity

/-- The time left if `total` keys have to be tried and `attempts` took the time `elapsed`: nothing
before the first attempt, and nothing once the total is reached. No span is returned where it would
have too many seconds. -/
def remaining? (elapsed : Duration) (total : Float) (attempts : Nat) : Option Duration :=
  if attempts = 0 then some .zero
  else
    let elapsed := elapsed.toSeconds
    let left := elapsed * (total / (UInt64.ofNat attempts).toFloat) - elapsed
    if left.isFinite && left > 0 then Duration.ofSeconds? left else some .zero

structure Progress where
  attempts : Nat
  remaining : Duration
deriving DecidableEq, Repr

structure Estimator where
  start : Duration
  total : Float

def Estimator.progress? (estimator : Estimator) (now : Duration) (attempts : Nat) :
    Option Progress :=
  (remaining? (now.since estimator.start) estimator.total attempts).map (⟨attempts, ·⟩)

def twoDigits (n : Nat) : String := if n < 10 then s!"0{n}" else s!"{n}"

def Progress.message (progress : Progress) : String :=
  let seconds := progress.remaining.seconds
  let hours := seconds / 3600
  let minutes := twoDigits (seconds / 60 % 60)
  let rest := twoDigits (seconds % 60)
  s!"{progress.attempts} attempts, about {hours}h {minutes}m {rest}s left"

end BitcoinKeys.Vanity
