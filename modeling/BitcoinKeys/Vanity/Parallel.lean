import BitcoinKeys.Vanity.Search

/-!
The search by several workers at once. Each worker draws keys from a source of its own; they share a
stop flag, a cancel flag, the number of attempts and the place for the match. One step of one worker
touches the shared part once, and the steps of the workers may interleave in any way.
-/
namespace BitcoinKeys.Vanity.Parallel

inductive Phase where
  | readStop
  | readCancel
  /-- Take a block from the source, and try it if it is a scalar. -/
  | draw
  /-- Take an attempt number for a key that was tried. -/
  | count (key : PrivateKey) (checked : Except Error (Option String))
  /-- Set the stop flag; who sets it first may record the match. -/
  | claim (found : Match)
  | record (found : Match)
  | report (number : Nat)
  /-- The estimate for a report was no span of time, and the worker has stopped there. -/
  | overflowed (number : Nat)
  /-- Set the stop flag because a key could not be tried. -/
  | fail (error : Error)
  | done (result : Except Error Unit)

structure Worker where
  blocks : BlockStream
  position : Nat
  phase : Phase

inductive Entry where
  | numbered (worker : Nat) (key : PrivateKey) (number : Nat)
  | recorded (worker : Nat) (found : Match)
  | reported (worker : Nat) (progress : Progress)
deriving DecidableEq

/-- What the workers share, the clock, which starts with the search, and the log of their steps
with the last one in front. -/
structure Shared where
  stop : Bool
  cancelled : Bool
  attempts : Nat
  found : Option Match
  now : Duration
  log : List Entry

structure State where
  shared : Shared
  workers : List Worker

def phaseAfterCount (search : Search) (key : PrivateKey) (number : Nat) :
    Except Error (Option String) → Phase
  | .ok (some address) => .claim ⟨key, address, number⟩
  | .ok none => if search.isReportDue number then .report number else .readStop
  | .error error => .fail error

def Worker.step (search : Search) (index : Nat) (worker : Worker) (shared : Shared) :
    Worker × Shared :=
  match worker.phase with
  | .readStop =>
    ({ worker with phase := if shared.stop then .done (.ok ()) else .readCancel }, shared)
  | .readCancel =>
    ({ worker with phase := if shared.cancelled then .done (.ok ()) else .draw }, shared)
  | .draw =>
    let block := worker.blocks worker.position
    let key : PrivateKey := ⟨block, true⟩
    let phase := if Curve.isScalar block.toNat then .count key (search.check key) else .draw
    ({ worker with position := worker.position + 1, phase }, shared)
  | .count key checked =>
    let number := shared.attempts + 1
    ({ worker with phase := phaseAfterCount search key number checked },
      { shared with attempts := number, log := .numbered index key number :: shared.log })
  | .claim found =>
    ({ worker with phase := if shared.stop then .done (.ok ()) else .record found },
      { shared with stop := true })
  | .record found =>
    ({ worker with phase := .done (.ok ()) },
      { shared with found := some found, log := .recorded index found :: shared.log })
  | .report number =>
    match (search.estimator .zero).progress? shared.now number with
    | none => ({ worker with phase := .overflowed number }, shared)
    | some progress =>
      ({ worker with phase := .readStop },
        { shared with log := .reported index progress :: shared.log })
  | .fail error => ({ worker with phase := .done (.error error) }, { shared with stop := true })
  | .overflowed _ | .done _ => (worker, shared)

inductive Event where
  | step (worker : Nat)
  | cancel
  | tick (now : Duration)
deriving DecidableEq, Repr

namespace State

def start (sources : List BlockStream) (cancelled : Bool) : State where
  shared := ⟨false, cancelled, 0, none, .zero, []⟩
  workers := sources.map fun blocks => ⟨blocks, 0, .readStop⟩

def after (search : Search) (state : State) : Event → State
  | .cancel => { state with shared := { state.shared with cancelled := true } }
  | .tick now => { state with shared := { state.shared with now } }
  | .step index =>
    match state.workers[index]? with
    | none => state
    | some worker =>
      let (worker, shared) := worker.step search index state.shared
      ⟨shared, state.workers.set index worker⟩

def run (search : Search) (state : State) (events : List Event) : State :=
  events.foldl (after search) state

def resultOf? (worker : Worker) : Option (Except Error Unit) :=
  match worker.phase with
  | .done result => some result
  | _ => none

def isDone (state : State) : Bool := state.workers.all fun worker => (resultOf? worker).isSome

def result (state : State) : Except Error (Option Match) :=
  (state.workers.filterMap resultOf?).foldr (fun own others => own.bind fun _ => others)
    (.ok state.shared.found)

def reports (state : State) : List Nat :=
  state.shared.log.reverse.filterMap fun
    | .reported _ progress => some progress.attempts
    | _ => none

/-- One step of every worker in turn. After each step the caller may cancel the search for what it
sees. -/
def round (search : Search) (cancels : State → Bool) (state : State) : State :=
  (List.range state.workers.length).foldl (fun state index =>
    let state := state.after search (.step index)
    if cancels state then state.after search .cancel else state) state

def runRounds (search : Search) (cancels : State → Bool) : Nat → State → State
  | 0, state => state
  | limit + 1, state =>
    if state.isDone then state else runRounds search cancels limit (state.round search cancels)

end State
end BitcoinKeys.Vanity.Parallel
