import BitcoinKeys.Proofs.Vanity.Parallel

/-!
What a parallel search has done, under every interleaving of its workers. What a worker still owes is
counted together with what is in the log: of a match that was claimed and of a report that is due, each
step moves exactly one from the one side to the other.
-/
namespace BitcoinKeys.Vanity.Parallel

variable {search : Search} {index : Nat} {shared : Shared} {worker : Worker}

/-- The counter hands out the next number and no number twice. -/
theorem numbers_step
    (hnumbers : (numbered shared.log).map Attempt.number = List.range' 1 shared.attempts) :
    let next := worker.step search index shared
    (numbered next.2.log).map Attempt.number = List.range' 1 next.2.attempts := by
  obtain ⟨blocks, position, phase⟩ := worker
  cases phase with
  | count key checked =>
    simp only [Worker.step, numbered, history_cons, List.map_append, List.range'_1_concat]
    rw [hnumbers, Nat.add_comm]
    rfl
  | record =>
    simp only [Worker.step, numbered]
    rw [history_cons_of_none rfl]
    exact hnumbers
  | report number =>
    rcases step_report search index blocks position number shared with h | ⟨progress, -, h⟩ <;>
      simp only [h, numbered]
    · exact hnumbers
    · rw [history_cons_of_none rfl]
      exact hnumbers
  | _ => exact hnumbers

def Phase.isRecording : Phase → Bool
  | .record _ => true
  | _ => false

/-- What the stop flag allows to be recorded is in the log or owed by a worker. -/
theorem recorded_step (hvalid : worker.phase.Valid search index shared) :
    let next := worker.step search index shared
    (recorded next.2.log).length + next.1.phase.isRecording.toNat + shared.stop.toNat =
      (recorded shared.log).length + worker.phase.isRecording.toNat + next.2.stop.toNat := by
  obtain ⟨blocks, position, phase⟩ := worker
  cases phase with
  | readStop | readCancel | draw =>
    simp only [Worker.step]
    split <;> rfl
  | count key checked =>
    obtain ⟨-, address?, rfl⟩ := hvalid
    have hwaits : (phaseAfterCount search key (shared.attempts + 1) (.ok address?)).isRecording =
        false := by
      cases address? with
      | some => rfl
      | none =>
        rw [phaseAfterCount]
        split <;> rfl
    simp only [Worker.step, recorded, hwaits]
    rw [history_cons_of_none rfl]
    rfl
  | claim found =>
    -- who finds the flag unset owes the match from here on
    cases hstop : shared.stop with
    | true => simp [Worker.step, hstop, Phase.isRecording]
    | false => simp [Worker.step, hstop, Phase.isRecording]
  | record found => simp [Worker.step, recorded, history_cons, Entry.match?, Phase.isRecording]
  | report number =>
    rcases step_report search index blocks position number shared with h | ⟨progress, -, h⟩ <;>
      simp only [h, recorded]
    · rfl
    · rw [history_cons_of_none rfl]
      rfl
  | fail => exact hvalid.elim
  | overflowed | done => rfl

/-- What is stored is the last match in the log. -/
theorem found_step (hfound : shared.found = (recorded shared.log).getLast?) :
    let next := worker.step search index shared
    next.2.found = (recorded next.2.log).getLast? := by
  obtain ⟨blocks, position, phase⟩ := worker
  cases phase with
  | record => simp [Worker.step, recorded, history_cons, Entry.match?]
  | count =>
    simp only [Worker.step, recorded]
    rw [history_cons_of_none rfl]
    exact hfound
  | report number =>
    rcases step_report search index blocks position number shared with h | ⟨progress, -, h⟩ <;>
      simp only [h, recorded]
    · exact hfound
    · rw [history_cons_of_none rfl]
      exact hfound
  | _ => exact hfound

theorem mem_recorded_step {found : Match}
    (hmem : found ∈ recorded (worker.step search index shared).2.log) :
    found ∈ recorded shared.log ∨ worker.phase = .record found := by
  obtain ⟨blocks, position, phase⟩ := worker
  cases phase with
  | record =>
    simp only [Worker.step, recorded, history_cons, List.mem_append, Option.mem_toList] at hmem
    exact hmem.imp id fun hsame => congrArg Phase.record (Option.some.inj hsame)
  | count =>
    simp only [Worker.step, recorded] at hmem
    rw [history_cons_of_none rfl] at hmem
    exact Or.inl hmem
  | report number =>
    rcases step_report search index blocks position number shared with h | ⟨progress, -, h⟩ <;>
      simp only [h, recorded] at hmem
    · exact Or.inl hmem
    · rw [history_cons_of_none rfl] at hmem
      exact Or.inl hmem
  | _ => exact Or.inl hmem

def Phase.isReporting (number : Nat) : Phase → Bool
  | .report due | .overflowed due => due = number
  | _ => false

theorem toNat_isReporting (other number : Nat) :
    ((Phase.report other).isReporting number).toNat = [other].count number := by
  by_cases hsame : other = number
  · simp [Phase.isReporting, hsame]
  · simp [Phase.isReporting, hsame]

def due (search : Search) (log : List Entry) : List Nat :=
  ((numbered log).filter fun attempt =>
    search.isReportDue attempt.number && search.check attempt.key = .ok none).map Attempt.number

/-- A number falls due as soon as it is given, if its key does not have the pattern. -/
theorem due_numbered (key : PrivateKey) (number : Nat) (log : List Entry) :
    due search (.numbered index key number :: log) = due search log ++
      if search.isReportDue number && search.check key = .ok none then [number] else [] := by
  simp only [due, numbered, history_cons, Entry.attempt?, Option.toList, List.filter_append,
    List.map_append, List.filter_cons, List.filter_nil]
  split <;> rfl

theorem due_of_none {entry : Entry} (hsilent : entry.attempt? = none) (log : List Entry) :
    due search (entry :: log) = due search log := by
  rw [due, numbered, history_cons_of_none hsilent, due]

/-- A report that is due is in the log or owed by a worker. -/
theorem reported_step (hvalid : worker.phase.Valid search index shared) (number : Nat) :
    let next := worker.step search index shared
    (reported next.2.log).count number + (next.1.phase.isReporting number).toNat +
        (due search shared.log).count number =
      (reported shared.log).count number + (worker.phase.isReporting number).toNat +
        (due search next.2.log).count number := by
  obtain ⟨blocks, position, phase⟩ := worker
  cases phase with
  | readStop | readCancel | draw | claim =>
    simp only [Worker.step]
    split <;> rfl
  | count key checked =>
    obtain ⟨rfl, address?, hchecked⟩ := hvalid
    simp only [Worker.step, reported, due_numbered, hchecked]
    rw [history_cons_of_none rfl]
    cases address? with
    | some address => simp [phaseAfterCount, Phase.isReporting]
    | none =>
      -- if a report follows, the worker owes it from here on
      by_cases hfollows : search.isReportDue (shared.attempts + 1) = true
      · have howes : phaseAfterCount search key (shared.attempts + 1) (.ok none) =
            .report (shared.attempts + 1) := if_pos hfollows
        have hidle : (Phase.isReporting number (.count key (.ok none))).toNat = 0 := rfl
        simp only [howes, toNat_isReporting, hfollows, hidle, decide_true, Bool.and_self, if_true,
          List.count_append]
        omega
      · simp [phaseAfterCount, hfollows, Phase.isReporting]
  | record found =>
    simp only [Worker.step, reported]
    rw [history_cons_of_none rfl, due_of_none rfl]
    rfl
  | report other =>
    rcases step_report search index blocks position other shared with h | ⟨progress, hsame, h⟩ <;>
      simp only [h]
    · rfl
    · -- what was owed is in the log from here on
      have hidle : (Phase.isReporting number .readStop).toNat = 0 := rfl
      simp only [reported, history_cons, List.count_append, toNat_isReporting, hidle]
      rw [due_of_none rfl, ← hsame]
      rfl
  | fail | overflowed | done => rfl

theorem mem_numbered_step {attempt : Attempt} (hmem : attempt ∈ numbered shared.log) :
    attempt ∈ numbered (worker.step search index shared).2.log := by
  obtain ⟨new, hlog, -⟩ := log_step search index worker shared
  rw [hlog, numbered, history_append]
  exact List.mem_append_left _ hmem

/-- A number that is new after a step was given to the worker that took it. -/
theorem mem_numbered_of_step {attempt : Attempt}
    (hmem : attempt ∈ numbered (worker.step search index shared).2.log) :
    attempt ∈ numbered shared.log ∨ attempt.worker = index := by
  by_cases hown : index = attempt.worker
  · exact Or.inr hown.symm
  · have hrely := rely_step search hown worker shared
    have hmem := (mem_numberedOf_iff attempt.worker _ attempt).mpr ⟨hmem, rfl⟩
    rw [hrely.numberedOf_eq] at hmem
    exact Or.inl ((mem_numberedOf_iff ..).mp hmem).1

/-- What a list counts for with a member, it counts for with another one in its place. -/
theorem countP_set_add {α : Type} (p : α → Bool) {xs : List α} {i : Nat} {x : α}
    (hx : xs[i]? = some x) (y : α) :
    (xs.set i y).countP p + (p x).toNat = xs.countP p + (p y).toNat := by
  obtain ⟨hi, rfl⟩ := List.getElem?_eq_some_iff.mp hx
  have hcounted : (p xs[i]).toNat ≤ xs.countP p := by
    cases hold : p xs[i] with
    | false => exact Nat.zero_le _
    | true => exact List.countP_pos_iff.mpr ⟨xs[i], List.getElem_mem hi, hold⟩
  have htoNat (b : Bool) : (if b = true then 1 else 0) = b.toNat := by cases b <;> rfl
  rw [List.countP_set hi, htoNat, htoNat]
  omega

structure State.Invariant (search : Search) (state : State) : Prop where
  workers : ∀ index worker, state.workers[index]? = some worker →
    Worker.Invariant search index state.shared worker
  indices : ∀ attempt ∈ numbered state.shared.log, attempt.worker < state.workers.length
  numbers : (numbered state.shared.log).map Attempt.number = List.range' 1 state.shared.attempts
  place : state.shared.found = (recorded state.shared.log).getLast?
  matches_numbered : ∀ found ∈ recorded state.shared.log,
    (∃ index, ⟨index, found.key, found.attempts⟩ ∈ numbered state.shared.log) ∧
      search.Hits found.key found.address
  one_match : (recorded state.shared.log).length + state.workers.countP (·.phase.isRecording) =
    state.shared.stop.toNat
  reports : ∀ number, (reported state.shared.log).count number +
    state.workers.countP (·.phase.isReporting number) = (due search state.shared.log).count number

namespace State

variable {state : State}

theorem after_step (hpresent : state.workers[index]? = some worker) :
    state.after search (.step index) = ⟨(worker.step search index state.shared).2,
      state.workers.set index (worker.step search index state.shared).1⟩ := by
  rw [State.after, hpresent]

/-- A step of one worker: its own part by the step lemma, the parts of the others by what they
rely on. -/
theorem Invariant.step (hinvariant : state.Invariant search)
    (hpresent : state.workers[index]? = some worker) :
    (state.after search (.step index)).Invariant search := by
  have hown := hinvariant.workers index worker hpresent
  rw [after_step hpresent]
  constructor
  case workers =>
    intro other next hget
    -- the step itself keeps what holds of its worker, and the others rely on it
    by_cases hsame : index = other
    · subst hsame
      rw [List.getElem?_set_self', hpresent] at hget
      cases hget
      exact hown.step
    · rw [List.getElem?_set_ne hsame] at hget
      exact (hinvariant.workers other next hget).of_rely (rely_step search hsame worker state.shared)
  case indices =>
    intro attempt hmem
    rw [List.length_set]
    rcases mem_numbered_of_step hmem with hmem | rfl
    · exact hinvariant.indices attempt hmem
    · exact (List.getElem?_eq_some_iff.mp hpresent).1
  case numbers => exact numbers_step hinvariant.numbers
  case place => exact found_step hinvariant.place
  case matches_numbered =>
    intro found hmem
    rcases mem_recorded_step hmem with hmem | hphase
    · obtain ⟨⟨index, hmem⟩, hhits⟩ := hinvariant.matches_numbered found hmem
      exact ⟨⟨index, mem_numbered_step hmem⟩, hhits⟩
    · -- a match that is written now has had its number since it was claimed
      have hvalid := hown.phase
      rw [hphase] at hvalid
      exact ⟨⟨index, mem_numbered_step ((mem_numberedOf_iff ..).mp hvalid.1).1⟩, hvalid.2.1⟩
  case one_match =>
    have hstep := recorded_step hown.phase
    have hworkers := countP_set_add (·.phase.isRecording) hpresent
      (worker.step search index state.shared).1
    have hbefore := hinvariant.one_match
    simp only at hstep hworkers ⊢
    omega
  case reports =>
    intro number
    have hstep := reported_step hown.phase number
    have hworkers := countP_set_add (·.phase.isReporting number) hpresent
      (worker.step search index state.shared).1
    have hbefore := hinvariant.reports number
    simp only at hstep hworkers ⊢
    omega

theorem Invariant.after (hinvariant : state.Invariant search) (event : Event) :
    (state.after search event).Invariant search := by
  cases event with
  | cancel =>
    refine { hinvariant with workers := ?_ }
    intro index worker hpresent
    exact (hinvariant.workers index worker hpresent).of_rely (rely_cancel index state.shared)
  | tick now =>
    refine { hinvariant with workers := ?_ }
    intro index worker hpresent
    exact (hinvariant.workers index worker hpresent).of_rely (rely_tick index state.shared now)
  | step index =>
    cases hpresent : state.workers[index]? with
    | some worker => exact hinvariant.step hpresent
    | none =>
      rw [State.after, hpresent]
      exact hinvariant

/-- Induction over the events of a run. -/
theorem Invariant.run (hinvariant : state.Invariant search) (events : List Event) :
    (state.run search events).Invariant search := by
  induction events generalizing state with
  | nil => exact hinvariant
  | cons event rest ih => exact ih (hinvariant.after event)

theorem invariant_start (search : Search) (sources : List BlockStream) (cancelled : Bool) :
    (start sources cancelled).Invariant search := by
  have hwaits (p : Phase → Bool) (h : p .readStop = false) :
      (start sources cancelled).workers.countP (fun worker => p worker.phase) = 0 := by
    apply List.countP_eq_zero.mpr
    intro worker hmem
    obtain ⟨blocks, -, rfl⟩ := List.mem_map.mp hmem
    exact Bool.eq_false_iff.mp h
  constructor
  case workers =>
    intro index worker hpresent
    obtain ⟨blocks, -, rfl⟩ := List.mem_map.mp (List.mem_of_getElem? hpresent)
    exact ⟨rfl, trivial, nofun⟩
  case indices => exact nofun
  case numbers => rfl
  case place => rfl
  case matches_numbered => exact nofun
  case one_match => exact (Nat.zero_add _).trans (hwaits Phase.isRecording rfl)
  case reports => exact fun number => (Nat.zero_add _).trans (hwaits (Phase.isReporting number) rfl)

end State
end BitcoinKeys.Vanity.Parallel
