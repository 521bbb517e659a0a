import BitcoinKeys.Address
import BitcoinKeys.BlockStream
import BitcoinKeys.Vanity.Pattern
import BitcoinKeys.Vanity.Progress

/-!
The search for a key whose address has a pattern, one key after the other. It ends with a match, when
it is cancelled, or at a report whose estimate is no span of time. Every key that is drawn is tried, so
a search that is cancelled and taken up again at the position it reached passes no key over.
-/
namespace BitcoinKeys.Vanity

structure Options where
  pattern : String
  kind : AddressKind
  network : Network
  /-- The number of attempts from one report to the next; zero asks for none. -/
  reportEvery : Nat := 10000
  /-- The number of workers of a parallel search; zero asks for one on every processor. -/
  workers : Nat := 0
deriving DecidableEq, Repr

structure Search where
  pattern : Pattern
  network : Network
  reportEvery : Nat
  workers : Nat
deriving DecidableEq

structure Match where
  key : PrivateKey
  address : String
  /-- The number of keys that were tried, this one included. -/
  attempts : Nat
deriving DecidableEq

/-- The surroundings of a search, as far as the search can tell: whether it is cancelled, what a
draw from the source of randomness and a report do to that, and what the clock shows. -/
structure Host (σ : Type) where
  cancelled : σ → Bool
  drawn : σ → σ
  reported : Nat → σ → σ
  now : σ → Duration := fun _ => .zero

structure Outcome (σ : Type) where
  found : Option Match
  attempts : Nat
  position : Nat
  progress : List Progress
  surroundings : σ

/-- How a search ends. An estimate that is no span of time stops it at the report of that attempt,
and it returns nothing then. -/
inductive Ending (σ : Type) where
  | unfinished
  | overflowed (attempts : Nat)
  | returned (result : Except Error (Outcome σ))

namespace Outcome

variable {σ : Type}

def reports (outcome : Outcome σ) : List Nat := outcome.progress.map Progress.attempts

def afterReport (progress : Progress) (outcome : Outcome σ) : Outcome σ :=
  { outcome with progress := progress :: outcome.progress }

end Outcome

namespace Ending

variable {σ : Type}

def map (f : Outcome σ → Outcome σ) : Ending σ → Ending σ
  | .returned result => .returned (result.map f)
  | ending => ending

def behindReport (attempts : Nat) (progress? : Option Progress) (rest : Ending σ) : Ending σ :=
  match progress? with
  | none => .overflowed attempts
  | some progress => rest.map (Outcome.afterReport progress)

def result? : Ending σ → Option (Except Error (Outcome σ))
  | .returned result => some result
  | _ => none

end Ending

namespace Search

def ofOptions (options : Options) : Except Error Search := do
  let pattern ← Pattern.ofText options.pattern options.kind
  return ⟨pattern, options.network, options.reportEvery, options.workers⟩

def poolSize (search : Search) (processors : Nat) : Nat :=
  if search.workers = 0 then max 1 processors else search.workers

def check (search : Search) (key : PrivateKey) : Except Error (Option String) := do
  let address ← Address.ofPrivateKey key search.pattern.kind search.network
  return if search.pattern.isIn address then some address else none

def isReportDue (search : Search) (attempts : Nat) : Bool :=
  0 < search.reportEvery && attempts % search.reportEvery = 0

def estimator (search : Search) (now : Duration) : Estimator := ⟨now, search.pattern.permutations⟩

/-- Tries keys from a position on, `attempts` having been tried before. The surroundings are asked
whether to go on before each key, and not between the blocks that a key takes. The search is
unfinished if `limit` keys, or blocks in a row, do not end it. -/
def runFrom {σ : Type} (search : Search) (blocks : BlockStream) (host : Host σ)
    (estimator : Estimator) : Nat → Nat → Nat → σ → Ending σ
  | 0, _, _, _ => .unfinished
  | limit + 1, attempts, position, surroundings =>
    if host.cancelled surroundings then .returned (.ok ⟨none, attempts, position, [], surroundings⟩)
    else
      match blocks.drawKey host.drawn (limit + 1) position surroundings with
      | none => .unfinished
      | some ⟨key, position, surroundings⟩ =>
        let number := attempts + 1
        match search.check key with
        | .error error => .returned (.error error)
        | .ok (some address) =>
          .returned (.ok ⟨some ⟨key, address, number⟩, number, position, [], surroundings⟩)
        | .ok none =>
          if search.isReportDue number then
            .behindReport number (estimator.progress? (host.now surroundings) number)
              (search.runFrom blocks host estimator limit number position
                (host.reported number surroundings))
          else search.runFrom blocks host estimator limit number position surroundings

def ending {σ : Type} (search : Search) (blocks : BlockStream) (host : Host σ)
    (limit position : Nat) (surroundings : σ) : Ending σ :=
  search.runFrom blocks host (search.estimator (host.now surroundings)) limit 0 position surroundings

def run {σ : Type} (search : Search) (blocks : BlockStream) (host : Host σ) (limit position : Nat)
    (surroundings : σ) : Option (Except Error (Outcome σ)) :=
  (search.ending blocks host limit position surroundings).result?

end Search
end BitcoinKeys.Vanity
