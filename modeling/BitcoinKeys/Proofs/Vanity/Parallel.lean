import BitcoinKeys.Proofs.Vanity.Search
import BitcoinKeys.Vanity.Parallel

/-!
What one worker relies on and what one of its steps does, whatever the others do in between. A worker
keeps its own entries of the log in line with the keys it has drawn; the others add entries of their own,
and never take back a flag that is set.
-/
namespace BitcoinKeys.Vanity

namespace Search

variable (search : Search)

def Hits (key : PrivateKey) (address : String) : Prop :=
  Address.ofPrivateKey key search.pattern.kind search.network = .ok address ∧
    search.pattern.isIn address = true

/-- A check finds an address exactly if the address of the key has the pattern. -/
theorem check_eq_some_iff (key : PrivateKey) (address : String) :
    search.check key = .ok (some address) ↔ search.Hits key address := by
  rw [check, bind_eq_ok_iff]
  constructor
  · rintro ⟨text, hwritten, hsame⟩
    cases hisIn : search.pattern.isIn text with
    | false =>
      rw [hisIn] at hsame
      cases hsame
    | true =>
      rw [hisIn] at hsame
      cases hsame
      exact ⟨hwritten, hisIn⟩
  · rintro ⟨hwritten, hisIn⟩
    refine ⟨address, hwritten, ?_⟩
    rw [hisIn]
    rfl

/-- A scalar can always be tried. -/
theorem exists_check {key : PrivateKey} (hscalar : Curve.isScalar key.scalar.toNat = true) :
    ∃ address?, search.check key = .ok address? := by
  obtain ⟨text, hwritten⟩ :=
    Address.exists_ofPrivateKey key hscalar search.pattern.kind search.network
  exact ⟨_, search.check_of_ofPrivateKey hwritten⟩

end Search

namespace Parallel

structure Attempt where
  worker : Nat
  key : PrivateKey
  number : Nat
deriving DecidableEq

def Entry.worker : Entry → Nat
  | numbered worker _ _ | recorded worker _ | reported worker _ => worker

def Entry.attempt? : Entry → Option Attempt
  | numbered worker key number => some ⟨worker, key, number⟩
  | _ => none

def Entry.match? : Entry → Option Match
  | recorded _ found => some found
  | _ => none

def Entry.report? : Entry → Option Nat
  | reported _ progress => some progress.attempts
  | _ => none

def history {α : Type} (respect : Entry → Option α) (log : List Entry) : List α :=
  log.reverse.filterMap respect

theorem history_append {α : Type} (respect : Entry → Option α) (new log : List Entry) :
    history respect (new ++ log) = history respect log ++ history respect new := by
  rw [history, List.reverse_append, List.filterMap_append, history, history]

theorem history_cons {α : Type} (respect : Entry → Option α) (entry : Entry) (log : List Entry) :
    history respect (entry :: log) = history respect log ++ (respect entry).toList := by
  rw [← List.singleton_append, history_append]
  cases h : respect entry with
  | none => simp [history, h]
  | some x => simp [history, h]

theorem history_cons_of_none {α : Type} {respect : Entry → Option α} {entry : Entry}
    (hsilent : respect entry = none) (log : List Entry) :
    history respect (entry :: log) = history respect log := by
  rw [history_cons, hsilent]
  exact List.append_nil _

theorem mem_history_iff {α : Type} (respect : Entry → Option α) (log : List Entry) (x : α) :
    x ∈ history respect log ↔ ∃ entry ∈ log, respect entry = some x := by
  simp only [history, List.mem_filterMap, List.mem_reverse]

abbrev numbered (log : List Entry) : List Attempt := history Entry.attempt? log

abbrev recorded (log : List Entry) : List Match := history Entry.match? log

abbrev reported (log : List Entry) : List Nat := history Entry.report? log

def numberedOf (index : Nat) (log : List Entry) : List Attempt :=
  (numbered log).filter (·.worker = index)

theorem mem_numberedOf_iff (index : Nat) (log : List Entry) (attempt : Attempt) :
    attempt ∈ numberedOf index log ↔ attempt ∈ numbered log ∧ attempt.worker = index := by
  simp only [numberedOf, List.mem_filter, decide_eq_true_eq]

/-- A report is written to the log under its number, unless its estimate is no span of time. -/
theorem step_report (search : Search) (index : Nat) (blocks : BlockStream) (position number : Nat)
    (shared : Shared) :
    Worker.step search index ⟨blocks, position, .report number⟩ shared =
        (⟨blocks, position, .overflowed number⟩, shared) ∨
      ∃ progress, progress.attempts = number ∧
        Worker.step search index ⟨blocks, position, .report number⟩ shared =
          (⟨blocks, position, .readStop⟩,
            { shared with log := .reported index progress :: shared.log }) := by
  cases hprogress : (search.estimator .zero).progress? shared.now number with
  | none =>
    left
    simp only [Worker.step, hprogress]
  | some progress =>
    right
    refine ⟨progress, Estimator.attempts_eq _ hprogress, ?_⟩
    simp only [Worker.step, hprogress]

/-- The entries that the others add are not of this worker, and flags stay set. -/
structure Rely (index : Nat) (before after : Shared) : Prop where
  log : ∃ new, after.log = new ++ before.log ∧ ∀ entry ∈ new, entry.worker ≠ index
  stop : before.stop = true → after.stop = true
  cancelled : before.cancelled = true → after.cancelled = true

theorem Rely.numberedOf_eq {index : Nat} {before after : Shared}
    (hrely : Rely index before after) :
    numberedOf index after.log = numberedOf index before.log := by
  obtain ⟨new, hlog, hothers⟩ := hrely.log
  have hnone : numberedOf index new = [] := by
    apply List.filter_eq_nil_iff.mpr
    intro attempt hmem hown
    obtain ⟨entry, hadded, hsame⟩ := (mem_history_iff ..).mp hmem
    cases entry with
    | numbered worker key number =>
      cases hsame
      exact hothers _ hadded (of_decide_eq_true hown)
    | recorded | reported => cases hsame
  rw [hlog, numberedOf, numbered, history_append, List.filter_append]
  exact (congrArg _ hnone).trans (List.append_nil _)

/-- A step adds no entry but the worker's own. -/
theorem log_step (search : Search) (index : Nat) (worker : Worker) (shared : Shared) :
    ∃ new, (worker.step search index shared).2.log = new ++ shared.log ∧
      ∀ entry ∈ new, entry.worker = index := by
  have hone (entry : Entry) (hown : entry.worker = index) : ∀ x ∈ [entry], x.worker = index := by
    intro x hmem
    rwa [List.mem_singleton.mp hmem]
  obtain ⟨blocks, position, phase⟩ := worker
  cases phase with
  | count | record => exact ⟨[_], rfl, hone _ rfl⟩
  | report number =>
    rcases step_report search index blocks position number shared with h | ⟨progress, -, h⟩ <;> rw [h]
    · exact ⟨[], rfl, nofun⟩
    · exact ⟨[_], rfl, hone _ rfl⟩
  | _ => exact ⟨[], rfl, nofun⟩

theorem cancelled_step (search : Search) (index : Nat) (worker : Worker) (shared : Shared) :
    (worker.step search index shared).2.cancelled = shared.cancelled := by
  obtain ⟨blocks, position, phase⟩ := worker
  cases phase with
  | report number =>
    rcases step_report search index blocks position number shared with h | ⟨progress, -, h⟩ <;> rw [h]
  | _ => rfl

/-- The step of one worker is among what another relies on. -/
theorem rely_step (search : Search) {index other : Nat} (hne : other ≠ index) (worker : Worker)
    (shared : Shared) : Rely index shared (worker.step search other shared).2 := by
  obtain ⟨new, hlog, hown⟩ := log_step search other worker shared
  have hothers : ∀ entry ∈ new, entry.worker ≠ index := fun entry hmem => hown entry hmem ▸ hne
  refine ⟨⟨new, hlog, hothers⟩, ?_, ?_⟩
  · obtain ⟨blocks, position, phase⟩ := worker
    cases phase with
    | claim | fail => exact fun _ => rfl
    | report number =>
      rcases step_report search other blocks position number shared with h | ⟨progress, -, h⟩ <;>
        rw [h] <;> exact id
    | _ => exact id
  · rw [cancelled_step]
    exact id

theorem rely_cancel (index : Nat) (shared : Shared) :
    Rely index shared { shared with cancelled := true } :=
  ⟨⟨[], rfl, nofun⟩, id, fun _ => rfl⟩

theorem rely_tick (index : Nat) (shared : Shared) (now : Duration) :
    Rely index shared { shared with now } :=
  ⟨⟨[], rfl, nofun⟩, id, id⟩

def Worker.drawn (worker : Worker) : List PrivateKey :=
  (worker.blocks.scalars 0 worker.position).map (⟨·, true⟩)

def Phase.pending : Phase → List PrivateKey
  | .count key _ => [key]
  | _ => []

theorem Phase.length_pending_le (phase : Phase) : phase.pending.length ≤ 1 := by
  cases phase with
  | count => exact Nat.le_refl 1
  | _ => exact Nat.zero_le 1

/-- What holds of the phase of a worker. It carries a match that it has a number for, and it is
done only behind one of the flags; to fail it never comes. -/
def Phase.Valid (search : Search) (index : Nat) (shared : Shared) : Phase → Prop
  | .count key checked => search.check key = checked ∧ ∃ address?, checked = .ok address?
  | .claim found => ⟨index, found.key, found.attempts⟩ ∈ numberedOf index shared.log ∧
      search.Hits found.key found.address
  | .record found => ⟨index, found.key, found.attempts⟩ ∈ numberedOf index shared.log ∧
      search.Hits found.key found.address ∧ shared.stop = true
  | .fail _ => False
  | .done result => result = .ok () ∧ (shared.stop = true ∨ shared.cancelled = true)
  | _ => True

/-- What holds of a worker: it has a number for every key that it has drawn, but for the last one
if that is still to be counted, and if one of them had the pattern, the stop flag is set or about
to be. -/
structure Worker.Invariant (search : Search) (index : Nat) (shared : Shared) (worker : Worker) :
    Prop where
  keys : (numberedOf index shared.log).map Attempt.key ++ worker.phase.pending = worker.drawn
  phase : worker.phase.Valid search index shared
  hits : ∀ attempt ∈ numberedOf index shared.log, (∃ address, search.Hits attempt.key address) →
    shared.stop = true ∨ ∃ found, worker.phase = .claim found

variable {search : Search} {index : Nat} {shared : Shared} {worker : Worker}

theorem Phase.Valid.of_rely {after : Shared} (hrely : Rely index shared after) {phase : Phase}
    (hvalid : phase.Valid search index shared) : phase.Valid search index after := by
  cases phase with
  | claim found => simpa only [Phase.Valid, hrely.numberedOf_eq] using hvalid
  | record found =>
    simp only [Phase.Valid, hrely.numberedOf_eq] at hvalid ⊢
    exact ⟨hvalid.1, hvalid.2.1, hrely.stop hvalid.2.2⟩
  | done result => exact ⟨hvalid.1, hvalid.2.imp hrely.stop hrely.cancelled⟩
  | _ => exact hvalid

/-- The others cannot break what holds of a worker. -/
theorem Worker.Invariant.of_rely {after : Shared} (hrely : Rely index shared after)
    (hinvariant : worker.Invariant search index shared) : worker.Invariant search index after := by
  constructor
  case keys =>
    rw [hrely.numberedOf_eq]
    exact hinvariant.keys
  case phase => exact hinvariant.phase.of_rely hrely
  case hits =>
    rw [hrely.numberedOf_eq]
    intro attempt hmem hhit
    exact (hinvariant.hits attempt hmem hhit).imp hrely.stop id

theorem numberedOf_numbered (key : PrivateKey) (number : Nat) (log : List Entry) :
    numberedOf index (.numbered index key number :: log) =
      numberedOf index log ++ [⟨index, key, number⟩] := by
  simp [numberedOf, history_cons, Entry.attempt?]

theorem numberedOf_of_none {entry : Entry} (hsilent : entry.attempt? = none) (log : List Entry) :
    numberedOf index (entry :: log) = numberedOf index log := by
  rw [numberedOf, numbered, history_cons_of_none hsilent, numberedOf]

theorem pending_phaseAfterCount (key : PrivateKey) (number : Nat)
    (checked : Except Error (Option String)) :
    (phaseAfterCount search key number checked).pending = [] := by
  rcases checked with _ | _ | address
  · rfl
  · rw [phaseAfterCount]
    split <;> rfl
  · rfl

theorem drawn_succ (blocks : BlockStream) (position : Nat) (phase next : Phase) :
    Worker.drawn ⟨blocks, position + 1, next⟩ = Worker.drawn ⟨blocks, position, phase⟩ ++
      if blocks.HasScalar position then [⟨blocks position, true⟩] else [] := by
  simp only [Worker.drawn]
  rw [blocks.scalars_succ, List.map_append, Nat.zero_add]
  split <;> rfl

/-- A key that is drawn is pending until it has its number. -/
theorem keys_step
    (hkeys : (numberedOf index shared.log).map Attempt.key ++ worker.phase.pending = worker.drawn) :
    let next := worker.step search index shared
    (numberedOf index next.2.log).map Attempt.key ++ next.1.phase.pending = next.1.drawn := by
  obtain ⟨blocks, position, phase⟩ := worker
  cases phase with
  | draw =>
    simp only [Worker.step, drawn_succ blocks position .draw, ← hkeys]
    by_cases hscalar : blocks.HasScalar position
    · simp [hscalar, Phase.pending]
    · simp [hscalar, Phase.pending]
  | count key checked =>
    -- the key that was pending is the last one that has a number
    simp only [Worker.step, numberedOf_numbered, pending_phaseAfterCount, List.map_append,
      List.append_nil]
    exact hkeys
  | readStop | readCancel | claim =>
    simp only [Worker.step]
    split <;> exact hkeys
  | record =>
    simp only [Worker.step]
    rw [numberedOf_of_none rfl]
    exact hkeys
  | report number =>
    rcases step_report search index blocks position number shared with h | ⟨progress, -, h⟩ <;>
      simp only [h]
    · exact hkeys
    · rw [numberedOf_of_none rfl]
      exact hkeys
  | fail | overflowed | done => exact hkeys

/-- Every phase leads to one whose match, number and flags are in order. -/
theorem valid_step (hvalid : worker.phase.Valid search index shared) :
    let next := worker.step search index shared
    next.1.phase.Valid search index next.2 := by
  obtain ⟨blocks, position, phase⟩ := worker
  cases phase with
  | readStop =>
    cases hstop : shared.stop with
    | true => simp [Worker.step, Phase.Valid, hstop]
    | false => simp [Worker.step, Phase.Valid, hstop]
  | readCancel =>
    cases hcancelled : shared.cancelled with
    | true => simp [Worker.step, Phase.Valid, hcancelled]
    | false => simp [Worker.step, Phase.Valid, hcancelled]
  | draw =>
    simp only [Worker.step]
    split
    case isTrue hscalar => exact ⟨rfl, search.exists_check hscalar⟩
    case isFalse => trivial
  | count key checked =>
    obtain ⟨hsame, address?, rfl⟩ := hvalid
    simp only [Worker.step]
    cases address? with
    | none =>
      rw [phaseAfterCount]
      split <;> trivial
    | some address =>
      refine ⟨?_, (search.check_eq_some_iff key address).mp hsame⟩
      rw [numberedOf_numbered]
      exact List.mem_append_right _ List.mem_cons_self
  | claim found =>
    cases hstop : shared.stop with
    | true => simp [Worker.step, Phase.Valid, hstop]
    | false => simpa [Worker.step, Phase.Valid, hstop] using hvalid
  | record found =>
    -- the flag has been set when the match was claimed
    exact ⟨rfl, Or.inl hvalid.2.2⟩
  | report number =>
    rcases step_report search index blocks position number shared with h | ⟨progress, -, h⟩ <;>
      simp only [h] <;> trivial
  | overflowed => trivial
  | fail => exact hvalid.elim
  | done => exact hvalid

/-- A worker that hit claims the match before it does anything else. -/
theorem hits_step (hvalid : worker.phase.Valid search index shared)
    (hhits : ∀ attempt ∈ numberedOf index shared.log, (∃ address, search.Hits attempt.key address) →
      shared.stop = true ∨ ∃ found, worker.phase = .claim found) :
    let next := worker.step search index shared
    ∀ attempt ∈ numberedOf index next.2.log, (∃ address, search.Hits attempt.key address) →
      next.2.stop = true ∨ ∃ found, next.1.phase = .claim found := by
  obtain ⟨blocks, position, phase⟩ := worker
  -- but for the phase that sets it, a key with the pattern has a number only behind the flag
  have hflag (hother : ∀ found, phase ≠ .claim found) {attempt : Attempt}
      (hmem : attempt ∈ numberedOf index shared.log) (hhit : ∃ address, search.Hits attempt.key address) :
      shared.stop = true := by
    rcases hhits attempt hmem hhit with hstop | ⟨found, hsame⟩
    · exact hstop
    · exact absurd hsame (hother found)
  intro next attempt hmem hhit
  cases phase with
  | count key checked =>
    obtain ⟨hsame, address?, rfl⟩ := hvalid
    simp only [next, Worker.step, numberedOf_numbered, List.mem_append, List.mem_singleton] at hmem
    rcases hmem with hmem | rfl
    · exact Or.inl (hflag nofun hmem hhit)
    · obtain ⟨address, hhit⟩ := hhit
      have hsame := hsame.symm.trans ((search.check_eq_some_iff key address).mpr hhit)
      cases hsame
      exact Or.inr ⟨_, rfl⟩
  | claim found => exact Or.inl rfl
  | record =>
    simp only [next, Worker.step] at hmem
    rw [numberedOf_of_none rfl] at hmem
    exact Or.inl (hflag nofun hmem hhit)
  | report number =>
    rcases step_report search index blocks position number shared with h | ⟨progress, -, h⟩ <;>
      simp only [next, h] at hmem ⊢
    · exact Or.inl (hflag nofun hmem hhit)
    · rw [numberedOf_of_none rfl] at hmem
      exact Or.inl (hflag nofun hmem hhit)
  | fail => exact hvalid.elim
  | _ => exact Or.inl (hflag nofun hmem hhit)

/-- The worker's own step keeps the three parts of its invariant. -/
theorem Worker.Invariant.step (hinvariant : worker.Invariant search index shared) :
    let next := worker.step search index shared
    next.1.Invariant search index next.2 :=
  ⟨keys_step hinvariant.keys, valid_step hinvariant.phase, hits_step hinvariant.phase hinvariant.hits⟩

end Parallel
end BitcoinKeys.Vanity
