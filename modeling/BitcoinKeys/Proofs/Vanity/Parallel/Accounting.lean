import BitcoinKeys.Proofs.Vanity.Parallel.Invariant

/-!
What a parallel search has done, whatever the order of the steps. While it runs, no number is handed out
or reported twice and no second match is written; when all workers are done, a match is there exactly if
one was drawn.
-/
namespace BitcoinKeys.Vanity.Parallel

variable {search : Search}

theorem isReportDue_of_mem_due {number : Nat} {log : List Entry} (hmem : number ∈ due search log) :
    search.isReportDue number = true := by
  obtain ⟨attempt, hkept, rfl⟩ := List.mem_map.mp hmem
  exact (Bool.and_eq_true_iff.mp (List.mem_filter.mp hkept).2).1

theorem dvd_of_isReportDue {number : Nat} (hfollows : search.isReportDue number = true) :
    search.reportEvery ∣ number := by
  rw [Search.isReportDue, Bool.and_eq_true, decide_eq_true_iff, decide_eq_true_iff] at hfollows
  exact Nat.dvd_of_mod_eq_zero hfollows.2

theorem blocks_step (index : Nat) (worker : Worker) (shared : Shared) :
    (worker.step search index shared).1.blocks = worker.blocks := by
  obtain ⟨blocks, position, phase⟩ := worker
  cases phase with
  | report number =>
    rcases step_report search index blocks position number shared with h | ⟨progress, -, h⟩ <;> rw [h]
  | _ => rfl

namespace State

theorem blocks_after (state : State) (event : Event) :
    (state.after search event).workers.map Worker.blocks = state.workers.map Worker.blocks := by
  cases event with
  | cancel | tick => rfl
  | step index =>
    cases hpresent : state.workers[index]? with
    | none => rw [State.after, hpresent]
    | some worker =>
      have hsame : (state.workers.map Worker.blocks)[index]? = some worker.blocks := by
        rw [List.getElem?_map, hpresent, Option.map_some]
      obtain ⟨hinside, hsame⟩ := List.getElem?_eq_some_iff.mp hsame
      rw [after_step hpresent, List.map_set, blocks_step, ← hsame]
      exact List.set_getElem_self hinside

variable (search) in
/-- Nobody but the caller sets the cancel flag, and nobody clears it. -/
theorem cancelled_after (state : State) (event : Event) :
    (state.after search event).shared.cancelled = true ↔
      state.shared.cancelled = true ∨ event = .cancel := by
  cases event with
  | cancel => exact iff_of_true rfl (Or.inr rfl)
  | tick now => exact ⟨Or.inl, fun h => h.resolve_right nofun⟩
  | step index =>
    have hsame : (state.after search (.step index)).shared.cancelled = state.shared.cancelled := by
      cases hpresent : state.workers[index]? with
      | none => rw [State.after, hpresent]
      | some worker => rw [after_step hpresent, cancelled_step]
    rw [hsame]
    simp

theorem blocks_run (state : State) (events : List Event) :
    (state.run search events).workers.map Worker.blocks = state.workers.map Worker.blocks := by
  induction events generalizing state with
  | nil => rfl
  | cons event rest ih => exact (ih _).trans (state.blocks_after event)

theorem cancelled_run (state : State) (events : List Event) :
    (state.run search events).shared.cancelled = true ↔
      state.shared.cancelled = true ∨ .cancel ∈ events := by
  induction events generalizing state with
  | nil => simp [State.run]
  | cons event rest ih =>
    have hfirst := cancelled_after search state event
    rw [List.mem_cons, ← or_assoc, eq_comm (b := event), ← hfirst]
    exact ih _

theorem exists_run_of_turns (cancels : State → Bool) (turns : List Nat) (state : State) :
    ∃ events, turns.foldl (fun state index =>
      let state := state.after search (.step index)
      if cancels state then state.after search .cancel else state) state =
        state.run search events := by
  induction turns generalizing state with
  | nil => exact ⟨[], rfl⟩
  | cons index rest ih =>
    rw [List.foldl_cons]
    by_cases hcancelled : cancels (state.after search (.step index)) = true
    · obtain ⟨events, hsame⟩ := ih ((state.after search (.step index)).after search .cancel)
      refine ⟨.step index :: .cancel :: events, ?_⟩
      simp only [if_pos hcancelled]
      exact hsame
    · obtain ⟨events, hsame⟩ := ih (state.after search (.step index))
      refine ⟨.step index :: events, ?_⟩
      simp only [if_neg hcancelled]
      exact hsame

/-- A search in rounds is a run, so all that holds of runs holds of it. -/
theorem exists_run_of_runRounds (cancels : State → Bool) (limit : Nat) (state : State) :
    ∃ events, state.runRounds search cancels limit = state.run search events := by
  induction limit generalizing state with
  | zero => exact ⟨[], rfl⟩
  | succ limit ih =>
    by_cases hdone : state.isDone = true
    · exact ⟨[], if_pos hdone⟩
    · obtain ⟨first, hround⟩ :=
        exists_run_of_turns cancels (List.range state.workers.length) state
      obtain ⟨others, hrounds⟩ := ih (state.round search cancels)
      refine ⟨first ++ others, ?_⟩
      calc state.runRounds search cancels (limit + 1)
          = (state.round search cancels).runRounds search cancels limit := if_neg hdone
        _ = (state.round search cancels).run search others := hrounds
        _ = (state.run search first).run search others := congrArg (run search · others) hround
        _ = state.run search (first ++ others) := List.foldl_append.symm

variable {state : State}

theorem reports_eq (state : State) : state.reports = reported state.shared.log := by
  rw [State.reports, reported, history]
  rfl

theorem Invariant.length_recorded_le (hinvariant : state.Invariant search) :
    (recorded state.shared.log).length ≤ 1 := by
  have hflag := state.shared.stop.toNat_le
  have hone := hinvariant.one_match
  omega

theorem Invariant.recorded_eq (hinvariant : state.Invariant search) :
    recorded state.shared.log = state.shared.found.toList := by
  have hle := hinvariant.length_recorded_le
  rw [hinvariant.place]
  cases hwritten : recorded state.shared.log with
  | nil => rfl
  | cons first others =>
    rw [hwritten, List.length_cons] at hle
    have hnone : others = [] := List.eq_nil_of_length_eq_zero (by omega)
    rw [hnone]
    rfl

theorem Invariant.mem_recorded (hinvariant : state.Invariant search) {found : Match}
    (hstored : state.shared.found = some found) : found ∈ recorded state.shared.log := by
  rw [hinvariant.recorded_eq, hstored]
  exact List.mem_cons_self

theorem Invariant.nodup_due (hinvariant : state.Invariant search) :
    (due search state.shared.log).Nodup := by
  have hnumbers : ((numbered state.shared.log).map Attempt.number).Nodup := by
    rw [hinvariant.numbers]
    exact List.nodup_range'
  have hpart : (due search state.shared.log).Sublist
      ((numbered state.shared.log).map Attempt.number) := List.filter_sublist.map _
  exact hpart.nodup hnumbers

/-- A report is made at most as often as it is due. -/
theorem Invariant.count_reported_le (hinvariant : state.Invariant search) (number : Nat) :
    (reported state.shared.log).count number ≤ (due search state.shared.log).count number := by
  rw [← hinvariant.reports number]
  exact Nat.le_add_right ..

/-- What can be said while the workers take their steps. The numbers that were handed out are
those up to the last one; each worker has numbers for the keys that it has drawn, in their order,
but possibly for the last. -/
structure Accounts (search : Search) (sources : List BlockStream) (state : State) : Prop where
  sources : state.workers.map Worker.blocks = sources
  numbers : (numbered state.shared.log).map Attempt.number = List.range' 1 state.shared.attempts
  keys : ∀ index worker, state.workers[index]? = some worker →
    ∃ uncounted, uncounted.length ≤ 1 ∧
      (numberedOf index state.shared.log).map Attempt.key ++ uncounted = worker.drawn
  writes : (recorded state.shared.log).length ≤ 1
  written : recorded state.shared.log = state.shared.found.toList
  found : ∀ found, state.shared.found = some found →
    (∃ index, ⟨index, found.key, found.attempts⟩ ∈ numbered state.shared.log) ∧
    (∃ publicKey, PublicKey.derive found.key = .ok publicKey ∧
      Address.encode ⟨publicKey, search.pattern.kind, search.network⟩ = .ok found.address) ∧
    search.pattern.isIn found.address = true
  reports : ∀ number ∈ state.reports, search.reportEvery ∣ number
  nodup_reports : state.reports.Nodup

/-- What can be said at any time follows from the invariant alone. -/
theorem Invariant.accounts (hinvariant : state.Invariant search) :
    Accounts search (state.workers.map Worker.blocks) state := by
  constructor
  case sources => rfl
  case numbers => exact hinvariant.numbers
  case keys =>
    intro index worker hpresent
    exact ⟨_, worker.phase.length_pending_le, (hinvariant.workers index worker hpresent).keys⟩
  case writes => exact hinvariant.length_recorded_le
  case written => exact hinvariant.recorded_eq
  case found =>
    intro found hstored
    obtain ⟨hcounted, hwritten, hisIn⟩ :=
      hinvariant.matches_numbered found (hinvariant.mem_recorded hstored)
    exact ⟨hcounted, (Address.ofPrivateKey_eq_ok_iff ..).mp hwritten, hisIn⟩
  case reports =>
    intro number hmem
    rw [reports_eq] at hmem
    -- a number that was reported was due, and only multiples fall due
    have hpositive := (List.count_pos_iff.mpr hmem).trans_le (hinvariant.count_reported_le number)
    exact dvd_of_isReportDue (isReportDue_of_mem_due (List.count_pos_iff.mp hpositive))
  case nodup_reports =>
    rw [reports_eq, List.nodup_iff_count_le_one]
    intro number
    calc (reported state.shared.log).count number
        ≤ (due search state.shared.log).count number := hinvariant.count_reported_le number
      _ ≤ 1 := List.nodup_iff_count_le_one.mp hinvariant.nodup_due number

theorem phase_of_isDone (hdone : state.isDone = true) {worker : Worker} (hmem : worker ∈ state.workers) :
    ∃ result, worker.phase = .done result := by
  have hresult := List.all_eq_true.mp hdone worker hmem
  cases hphase : worker.phase with
  | done result => exact ⟨result, rfl⟩
  | _ => simp [resultOf?, hphase] at hresult

/-- A worker that is done has left its loop for one of the flags, and it owes nothing. -/
theorem Invariant.done (hinvariant : state.Invariant search) (hdone : state.isDone = true)
    {index : Nat} {worker : Worker} (hpresent : state.workers[index]? = some worker) :
    worker.phase = .done (.ok ()) ∧
      (state.shared.stop = true ∨ state.shared.cancelled = true) := by
  obtain ⟨result, hphase⟩ := phase_of_isDone hdone (List.mem_of_getElem? hpresent)
  have hvalid := (hinvariant.workers index worker hpresent).phase
  rw [hphase] at hvalid
  obtain ⟨rfl, hflag⟩ := hvalid
  exact ⟨hphase, hflag⟩

theorem Invariant.countP_eq_zero (hinvariant : state.Invariant search) (hdone : state.isDone = true)
    {p : Phase → Bool} (hnone : p (.done (.ok ())) = false) :
    state.workers.countP (fun worker => p worker.phase) = 0 := by
  apply List.countP_eq_zero.mpr
  intro worker hmem
  obtain ⟨index, hpresent⟩ := List.mem_iff_getElem?.mp hmem
  rw [(hinvariant.done hdone hpresent).1, hnone]
  exact Bool.false_ne_true

theorem Invariant.result_eq (hinvariant : state.Invariant search) (hdone : state.isDone = true) :
    state.result = .ok state.shared.found := by
  have hown : ∀ result ∈ state.workers.filterMap resultOf?, result = .ok () := by
    intro result hmem
    obtain ⟨worker, hmem, hsame⟩ := List.mem_filterMap.mp hmem
    obtain ⟨index, hpresent⟩ := List.mem_iff_getElem?.mp hmem
    rw [resultOf?, (hinvariant.done hdone hpresent).1] at hsame
    exact (Option.some.inj hsame).symm
  rw [State.result]
  -- from the last worker on, each one hands on what the others behind it return
  generalize state.workers.filterMap resultOf? = results at hown
  induction results with
  | nil => rfl
  | cons first others ih =>
    obtain ⟨hfirst, hothers⟩ := List.forall_mem_cons.mp hown
    rw [List.foldr_cons, hfirst, ih hothers]
    rfl

/-- Workers that are done owe nothing, so the flag and the match go together. -/
theorem Invariant.found_iff_stop (hinvariant : state.Invariant search) (hdone : state.isDone = true) :
    state.shared.found.isSome = true ↔ state.shared.stop = true := by
  -- nobody owes a match any more, so it was written if the flag allowed it
  have hone := hinvariant.one_match
  rw [hinvariant.countP_eq_zero hdone rfl, hinvariant.recorded_eq, Nat.add_zero] at hone
  cases hfound : state.shared.found with
  | none =>
    rw [hfound] at hone
    exact iff_of_false nofun (Bool.eq_false_iff.mp (Bool.toNat_eq_zero.mp hone.symm))
  | some _ =>
    rw [hfound] at hone
    exact iff_of_true rfl (Bool.toNat_eq_one.mp hone.symm)

/-- A worker that is done has no key left to count. -/
theorem Invariant.keys_of_isDone (hinvariant : state.Invariant search) (hdone : state.isDone = true)
    {index : Nat} {worker : Worker} (hpresent : state.workers[index]? = some worker) :
    (numberedOf index state.shared.log).map Attempt.key = worker.drawn := by
  have hkeys := (hinvariant.workers index worker hpresent).keys
  rw [(hinvariant.done hdone hpresent).1] at hkeys
  exact (List.append_nil _).symm.trans hkeys

/-- A match is there exactly if one was drawn. -/
theorem Invariant.found_iff_drawn (hinvariant : state.Invariant search) (hdone : state.isDone = true) :
    state.shared.found.isSome = true ↔
      ∃ worker ∈ state.workers, ∃ key ∈ worker.drawn, ∃ address, search.Hits key address := by
  constructor
  · intro hsome
    obtain ⟨found, hstored⟩ := Option.isSome_iff_exists.mp hsome
    obtain ⟨⟨index, hnumber⟩, hhits⟩ :=
      hinvariant.matches_numbered found (hinvariant.mem_recorded hstored)
    -- the worker that has the number of the match has drawn its key
    have hinside := hinvariant.indices _ hnumber
    have hpresent := List.getElem?_eq_getElem hinside
    refine ⟨_, List.getElem_mem hinside, found.key, ?_, found.address, hhits⟩
    rw [← hinvariant.keys_of_isDone hdone hpresent]
    exact List.mem_map.mpr ⟨_, (mem_numberedOf_iff ..).mpr ⟨hnumber, rfl⟩, rfl⟩
  · rintro ⟨worker, hmem, key, hdrawn, hhit⟩
    obtain ⟨index, hpresent⟩ := List.mem_iff_getElem?.mp hmem
    rw [← hinvariant.keys_of_isDone hdone hpresent] at hdrawn
    obtain ⟨attempt, hmem, rfl⟩ := List.mem_map.mp hdrawn
    rw [hinvariant.found_iff_stop hdone]
    -- the worker of that key is past its claim, so the flag was set by it or before it
    rcases (hinvariant.workers index worker hpresent).hits attempt hmem hhit with hstop | ⟨found, hphase⟩
    · exact hstop
    · rw [(hinvariant.done hdone hpresent).1] at hphase
      cases hphase

/-- What can be said when all workers are done. `asked` tells whether the search was to be
cancelled. -/
structure Settles (search : Search) (asked : Prop) (state : State) : Prop where
  result : state.result = .ok state.shared.found
  found_iff : state.shared.found.isSome = true ↔
    ∃ worker ∈ state.workers, ∃ key ∈ worker.drawn, ∃ address, search.Hits key address
  cancelled : state.shared.found = none → asked
  keys : ∀ index worker, state.workers[index]? = some worker →
    (numberedOf index state.shared.log).map Attempt.key = worker.drawn
  reports : state.reports.Perm (due search state.shared.log)

/-- Whatever the order of the steps: the numbers handed out are those up to the last one, each
once; one match is written at most, under the number of its own key and with the address of that
key, which has the pattern; and only multiples of the interval are reported, none of them twice.
When all workers are done, there is a result exactly if some worker drew a key with the pattern,
and otherwise the search was cancelled. -/
theorem accounts_under_every_interleaving (search : Search) {sources : List BlockStream}
    (hmanned : sources ≠ []) (cancelled : Bool) (events : List Event) {state : State}
    (hreached : (start sources cancelled).run search events = state) :
    Accounts search sources state ∧
      (state.isDone = true → Settles search (cancelled = true ∨ .cancel ∈ events) state) := by
  have hinvariant : state.Invariant search := by
    rw [← hreached]
    exact (invariant_start search sources cancelled).run events
  have hblocks : state.workers.map Worker.blocks = sources := by
    rw [← hreached]
    apply (blocks_run _ events).trans
    simp [start, Function.comp_def]
  have haccounts : Accounts search sources state := by
    rw [← hblocks]
    exact hinvariant.accounts
  refine ⟨haccounts, ?_⟩
  intro hdone
  constructor
  case result => exact hinvariant.result_eq hdone
  case found_iff => exact hinvariant.found_iff_drawn hdone
  case cancelled =>
    intro hnone
    -- any worker will do: it stopped for one of the flags, and the stop flag brings a match
    obtain ⟨worker, hmem⟩ : ∃ worker, worker ∈ state.workers := by
      apply List.exists_mem_of_ne_nil
      rintro hempty
      rw [hempty] at hblocks
      exact hmanned hblocks.symm
    obtain ⟨index, hpresent⟩ := List.mem_iff_getElem?.mp hmem
    rcases (hinvariant.done hdone hpresent).2 with hstop | hflag
    · have hsome := (hinvariant.found_iff_stop hdone).mpr hstop
      rw [hnone] at hsome
      cases hsome
    · rw [← hreached] at hflag
      exact (cancelled_run (start sources cancelled) events).mp hflag
  case keys => exact fun index worker hpresent => hinvariant.keys_of_isDone hdone hpresent
  case reports =>
    rw [reports_eq, List.perm_iff_count]
    intro number
    -- no worker that is done owes a report, so those that were due are in the log
    rw [← hinvariant.reports number, hinvariant.countP_eq_zero hdone rfl, Nat.add_zero]

/-- Both workers draw a key with the pattern before either of them sets the stop flag, and the
search is cancelled as well. The first worker sets the flag and writes its match, which has a
later number than the key that missed and was reported; the second worker finds the flag set. -/
theorem accounts_for_two_hits :
    let search : Search :=
      ⟨⟨"W508".toList, .p2wpkh, by decide, by decide, by decide⟩, .bitcoin, 1, 2⟩
    let sources : List BlockStream :=
      [.scripted [.ofNat 32 1] [], .scripted [.ofNat 32 0, .ofNat 32 2, .ofNat 32 1] []]
    let events : List Event := [1, 1, 1, 1, 1, 0, 0, 0, 0, 1, 1, 1, 1, 1].map .step ++ .cancel ::
      [0, 1, 0].map .step
    let found : Match := ⟨⟨.ofNat 32 1, true⟩, "bc1qw508d6qejxtdg4y5r3zarvary0c5xw7kv8f3t4", 2⟩
    sources ≠ [] ∧ ∃ state, (start sources false).run search events = state ∧
      state.isDone = true ∧ (numbered state.shared.log).map Attempt.number = [1, 2, 3] ∧
      state.result = .ok (some found) := by
  intro search sources events found
  have hmanned : sources ≠ [] := List.cons_ne_nil _ _
  have hfacts : ((start sources false).run search events).isDone = true ∧
      ((start sources false).run search events).shared.attempts = 3 ∧
      ((start sources false).run search events).shared.found = some found := by
    decide +kernel
  -- from here on the state is only known by these facts, so that it is not computed again
  obtain ⟨state, hreached⟩ : ∃ state, (start sources false).run search events = state := ⟨_, rfl⟩
  rw [hreached] at hfacts
  obtain ⟨hdone, hattempts, hstored⟩ := hfacts
  obtain ⟨haccounts, hsettles⟩ :=
    accounts_under_every_interleaving search hmanned false events hreached
  refine ⟨hmanned, state, hreached, hdone, ?_, ?_⟩
  · rw [haccounts.numbers, hattempts]
    rfl
  · rw [(hsettles hdone).result, hstored]

end State
end BitcoinKeys.Vanity.Parallel
