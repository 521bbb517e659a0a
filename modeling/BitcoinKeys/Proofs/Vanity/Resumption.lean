import BitcoinKeys.Proofs.Vanity.Accounting

/-!
A search that is cancelled and taken up again. The loop ends, if its limit is large enough, exactly as the
search may end, so a run over several stretches of the source in a row finds what runs over the single
stretches have found. Only a report in its midst whose estimate is no span of time can stop it before.
-/
namespace BitcoinKeys.Vanity.Search

variable {σ τ : Type} {search : Search} {blocks : BlockStream} {host : Host σ} {estimator : Estimator}

theorem AllMiss.misses {start count i : Nat} (hmisses : search.AllMiss blocks start count)
    (hi : i < count) (hscalar : blocks.HasScalar (start + i)) :
    search.Misses (blocks (start + i)) := by
  apply hmisses
  apply (blocks.mem_scalars_iff start count _).mpr
  exact ⟨i, hi, hscalar, rfl⟩

theorem AllMiss.take {start count more : Nat}
    (hmisses : search.AllMiss blocks start (count + more)) : search.AllMiss blocks start count := by
  intro scalar hscalar
  apply hmisses
  rw [blocks.scalars_add]
  exact List.mem_append_left _ hscalar

theorem Fits.of_le {start : Standing σ} {count more : Nat}
    (hfits : search.Fits blocks host estimator start more) (hle : count ≤ more) :
    search.Fits blocks host estimator start count := fun i hi => hfits i (hi.trans_le hle)

/-- The flag was read last at the start or behind the last of the scalars, and was not set. -/
theorem GoesOn.exists_last_asked {start : Standing σ} {count : Nat}
    (hgoesOn : search.GoesOn blocks host start (count + 1)) :
    ∃ before skipped, count = before + skipped ∧ IsAsked blocks start.position before ∧
      search.GoesOn blocks host start before ∧
      host.cancelled (search.passes blocks host before start).surroundings = false ∧
      ∀ i < skipped,
        ¬blocks.HasScalar ((search.passes blocks host before start).position + i) := by
  -- go back from the end over the blocks that are no scalars
  have hlast : ∃ before skipped, count = before + skipped ∧ IsAsked blocks start.position before ∧
      ∀ i < skipped, ¬blocks.HasScalar (start.position + before + i) := by
    clear hgoesOn
    induction count with
    | zero => exact ⟨0, 0, rfl, trivial, nofun⟩
    | succ count ih =>
      by_cases hscalar : blocks.HasScalar (start.position + count)
      · exact ⟨count + 1, 0, rfl, hscalar, nofun⟩
      · obtain ⟨before, skipped, rfl, hasked, hinvalid⟩ := ih
        refine ⟨before, skipped + 1, rfl, hasked, ?_⟩
        intro i hi
        rcases Nat.lt_succ_iff_lt_or_eq.mp hi with hi | rfl
        · exact hinvalid i hi
        · rwa [Nat.add_assoc]
  obtain ⟨before, skipped, rfl, hasked, hinvalid⟩ := hlast
  have hflag := hgoesOn before (by omega) hasked
  have hearlier : search.GoesOn blocks host start before := fun i hi => hgoesOn i (by omega)
  rw [← search.position_passes blocks host before start] at hinvalid
  exact ⟨before, skipped, rfl, hasked, hearlier, hflag, hinvalid⟩

/-- Whether the loop ends so from a standing under every limit that is large enough. -/
def Reaches (search : Search) (blocks : BlockStream) (host : Host σ) (estimator : Estimator)
    (start : Standing σ) (ending : Ending σ) : Prop :=
  ∃ enough, ∀ limit, enough ≤ limit →
    search.runFrom blocks host estimator limit start.attempts start.position start.surroundings =
      ending

section Step

variable {start : Standing σ} {skipped : Nat}

/-- The flag is read first, so one pass of the loop is enough. -/
theorem Reaches.of_flag (hflag : host.cancelled start.surroundings = true) :
    search.Reaches blocks host estimator start
      (.returned (.ok ⟨none, start.attempts, start.position, [], start.surroundings⟩)) := by
  refine ⟨1, fun limit hlimit => ?_⟩
  obtain ⟨limit, rfl⟩ := Nat.exists_eq_add_of_le' hlimit
  exact runFrom_of_flag hflag

variable (hflag : host.cancelled start.surroundings = false)
  (hinvalid : ∀ i < skipped, ¬blocks.HasScalar (start.position + i))
  (hscalar : blocks.HasScalar (start.position + skipped))
include hinvalid hscalar

variable (host) in
/-- The limit has to leave room for the blocks that are no scalars. -/
theorem drawKey_of_skipped {limit : Nat} (hlimit : skipped ≤ limit) :
    blocks.drawKey host.drawn (limit + 1) start.position start.surroundings =
      some ⟨⟨blocks (start.position + skipped), true⟩, start.position + skipped + 1,
        host.drawn (host.drawn^[skipped] start.surroundings)⟩ := by
  apply (blocks.drawKey_eq_some_iff ..).mpr
  exact ⟨skipped, Nat.lt_succ_of_le hlimit, hinvalid, hscalar, rfl⟩

include hflag

theorem Reaches.of_match {address : String}
    (hwritten : Address.ofPrivateKey ⟨blocks (start.position + skipped), true⟩ search.pattern.kind
      search.network = .ok address)
    (hisIn : search.pattern.isIn address = true) :
    search.Reaches blocks host estimator start (.returned (.ok
      ⟨some ⟨⟨blocks (start.position + skipped), true⟩, address, start.attempts + 1⟩,
        start.attempts + 1, start.position + skipped + 1, [],
        host.drawn (host.drawn^[skipped] start.surroundings)⟩)) := by
  refine ⟨skipped + 1, fun limit hlimit => ?_⟩
  obtain ⟨limit, rfl⟩ := Nat.exists_eq_add_of_le' (Nat.le_of_add_left_le hlimit)
  have hdrawn := drawKey_of_skipped host hinvalid hscalar (Nat.le_of_succ_le_succ hlimit)
  exact runFrom_of_match hflag hdrawn hwritten hisIn

/-- The report comes before the next key, so nothing behind it matters. -/
theorem Reaches.of_overflow (hmiss : search.Misses (blocks (start.position + skipped)))
    (hoverflows : search.Overflows host estimator (start.attempts + 1)
      (host.drawn (host.drawn^[skipped] start.surroundings))) :
    search.Reaches blocks host estimator start (.overflowed (start.attempts + 1)) := by
  obtain ⟨address, hwritten, hisIn⟩ := hmiss
  refine ⟨skipped + 1, fun limit hlimit => ?_⟩
  obtain ⟨limit, rfl⟩ := Nat.exists_eq_add_of_le' (Nat.le_of_add_left_le hlimit)
  have hdrawn := drawKey_of_skipped host hinvalid hscalar (Nat.le_of_succ_le_succ hlimit)
  exact runFrom_of_overflow hflag hdrawn hwritten hisIn hoverflows

/-- The limit has to cover the rest of the search and the blocks that are passed over in front of
it. -/
theorem Reaches.of_miss (hmiss : search.Misses (blocks (start.position + skipped)))
    (hfits : ¬search.Overflows host estimator (start.attempts + 1)
      (host.drawn (host.drawn^[skipped] start.surroundings))) {ending : Ending σ}
    (hrest : search.Reaches blocks host estimator
      (search.passes blocks host (skipped + 1) start) ending) :
    search.Reaches blocks host estimator start (ending.behind
      (search.reportAfter host estimator (start.attempts + 1)
        (host.drawn (host.drawn^[skipped] start.surroundings)))) := by
  obtain ⟨address, hwritten, hisIn⟩ := hmiss
  obtain ⟨enough, hrest⟩ := hrest
  rw [search.passes_of_scalar blocks host hinvalid hscalar] at hrest
  refine ⟨max enough skipped + 1, fun limit hlimit => ?_⟩
  obtain ⟨limit, rfl⟩ := Nat.exists_eq_add_of_le' (Nat.le_of_add_left_le hlimit)
  obtain ⟨henough, hskipped⟩ := max_le_iff.mp (Nat.le_of_succ_le_succ hlimit)
  have hdrawn := drawKey_of_skipped host hinvalid hscalar hskipped
  rw [runFrom_of_miss hflag hdrawn hwritten hisIn hfits, hrest limit henough]

end Step

/-- As the loop ends from the standing behind some attempts in vain, it ends from their start,
with the reports of these attempts in front. -/
theorem Reaches.of_passes {start : Standing σ} {count : Nat} {ending : Ending σ}
    (hgoesOn : search.GoesOn blocks host start count)
    (hfits : search.Fits blocks host estimator start count)
    (hasked : IsAsked blocks start.position count)
    (hmisses : search.AllMiss blocks start.position count)
    (hrest : search.Reaches blocks host estimator (search.passes blocks host count start) ending) :
    search.Reaches blocks host estimator start
      (ending.behind (search.reportsOf blocks host estimator start count)) := by
  -- backwards from the end: the last attempt is put in front of what is reached behind it
  induction count using Nat.strong_induction_on generalizing ending with
  | _ count ih =>
    cases count with
    | zero => exact (Ending.behind_nil ending).symm ▸ hrest
    | succ count =>
      obtain ⟨before, skipped, rfl, hasked', hearlier, hflag, hinvalid⟩ := hgoesOn.exists_last_asked
      have hposition := search.position_passes blocks host before start
      have hscalar : blocks.HasScalar (start.position + (before + skipped)) := hasked
      have hmiss := hmisses.misses (Nat.lt_succ_self _) hscalar
      have hlast := hfits (before + skipped) (Nat.lt_succ_self _)
      rw [← Nat.add_assoc, ← hposition] at hscalar hmiss
      rw [passes_add, passes_of_skipped search blocks host hinvalid] at hlast
      rw [Nat.add_assoc] at hmisses hrest ⊢
      rw [passes_add] at hrest
      have hstep := Reaches.of_miss hflag hinvalid hscalar hmiss (fun h => hlast ⟨hscalar, h⟩) hrest
      have hwhole := ih before (by omega) hearlier (hfits.of_le (by omega)) hasked' hmisses.take hstep
      rwa [← reportsOf_of_scalar hinvalid hscalar, ← Ending.behind_append, ← reportsOf_add] at hwhole

/-- The loop ends, under every limit that is large enough, as the search may end. -/
theorem Ends.reaches {start : Standing σ} {ending : Ending σ}
    (hends : search.Ends blocks host estimator start ending) :
    search.Reaches blocks host estimator start ending := by
  cases hends with
  | cancelled count hstanding hgoesOn hfits hasked hflag hmisses =>
    subst hstanding
    have hwhole := Reaches.of_passes hgoesOn hfits hasked hmisses (Reaches.of_flag hflag)
    rwa [Ending.behind_returned_ok, List.append_nil] at hwhole
  | found count hstanding hgoesOn hfits hscalar hwritten hisIn hmisses =>
    subst hstanding
    -- the last draw passed over some blocks, between which the flag was not read
    obtain ⟨before, skipped, rfl, hasked, hearlier, hflag, hinvalid⟩ := hgoesOn.exists_last_asked
    rw [passes_add, passes_of_skipped search blocks host hinvalid] at hscalar hwritten ⊢
    rw [reportsOf_add, reportsOf_of_skipped hinvalid]
    exact Reaches.of_passes hearlier (hfits.of_le (Nat.le_add_right ..)) hasked hmisses.take
      (Reaches.of_match hflag hinvalid hscalar hwritten hisIn)
  | overflowed count hstanding hgoesOn hfits hoverflows hmisses =>
    subst hstanding
    obtain ⟨before, skipped, rfl, hasked, hearlier, hflag, hinvalid⟩ := hgoesOn.exists_last_asked
    have hmiss := hmisses.misses (Nat.lt_succ_self _) (search.position_passes .. ▸ hoverflows.1)
    rw [← Nat.add_assoc, ← search.position_passes blocks host before start] at hmiss
    rw [passes_add, passes_of_skipped search blocks host hinvalid] at hoverflows ⊢
    rw [Nat.add_assoc] at hmisses
    exact Reaches.of_passes hearlier (hfits.of_le (Nat.le_add_right ..)) hasked hmisses.take
      (Reaches.of_overflow hflag hinvalid hoverflows.1 hmiss hoverflows.2)

/-- There is one way in which a search ends. -/
theorem Ends.unique {start : Standing σ} {ending other : Ending σ}
    (hends : search.Ends blocks host estimator start ending)
    (hother : search.Ends blocks host estimator start other) : ending = other := by
  obtain ⟨enough, hends⟩ := hends.reaches
  obtain ⟨enough', hother⟩ := hother.reaches
  exact (hends _ (le_max_left enough enough')).symm.trans (hother _ (le_max_right enough enough'))

/-- A search that was cancelled and taken up again any number of times, by the position at which
it started, the attempts of all its runs and the position that it has reached. The flag is cleared
between two runs, and each run has surroundings of its own. -/
inductive Interrupted (search : Search) (blocks : BlockStream) (start : Nat) : Nat → Nat → Prop
  | untouched : Interrupted search blocks start 0 start
  | cancelled {attempts position : Nat} (before : Interrupted search blocks start attempts position)
      {σ : Type} {host : Host σ} {limit : Nat} {surroundings : σ} {outcome : Outcome σ}
      (returned : search.run blocks host limit position surroundings = some (.ok outcome))
      (none : outcome.found = none) :
      Interrupted search blocks start (attempts + outcome.attempts) outcome.position

/-- The attempts of the cancelled runs are the scalars of one stretch of the source, and all
miss. -/
theorem Interrupted.exists_stretch {start attempts position : Nat}
    (hinterrupted : Interrupted search blocks start attempts position) :
    ∃ count, position = start + count ∧ attempts = (blocks.scalars start count).length ∧
      search.AllMiss blocks start count := by
  induction hinterrupted with
  | untouched => exact ⟨0, rfl, rfl, nofun⟩
  | cancelled hbefore hreturned hnone ih =>
    obtain ⟨count, rfl, rfl, hmisses⟩ := ih
    -- the next run starts where the stretch so far ends
    cases ends_of_run hreturned with
    | found => cases hnone
    | cancelled more hstanding _ _ _ _ hmisses' =>
      subst hstanding
      refine ⟨count + more, ?_, ?_, hmisses.add hmisses'⟩
      · rw [position_passes, Nat.add_assoc]
      · rw [attempts_passes, blocks.scalars_add, List.length_append, Nat.zero_add]

theorem attempts_passes_le {start : Standing σ} {count more : Nat} (hle : count ≤ more) :
    (search.passes blocks host count start).attempts ≤
      (search.passes blocks host more start).attempts := by
  obtain ⟨rest, rfl⟩ := Nat.exists_eq_add_of_le hle
  rw [passes_add, attempts_passes _ _ _ rest]
  exact Nat.le_add_right ..

/-- A search that nobody cancels goes on up to the first report whose estimate is no span of
time. -/
theorem exists_overflow {start : Standing σ} {count : Nat}
    (huncancelled : ∀ surroundings, host.cancelled surroundings = false)
    (hmisses : search.AllMiss blocks start.position count)
    (hoverflows : ¬search.Fits blocks host estimator start count) :
    ∃ number ≤ (search.passes blocks host count start).attempts,
      search.isReportDue number = true ∧
      (∃ later, estimator.progress? (host.now later) number = none) ∧
      search.Ends blocks host estimator start (.overflowed number) := by
  classical
  have hsome : ∃ before, before < count ∧
      search.OverflowsAt blocks host estimator (search.passes blocks host before start) := by
    simpa [Fits] using hoverflows
  -- up to the first estimate that is no span of time all reports are made
  obtain ⟨hbefore, hat⟩ := Nat.find_spec hsome
  have hfirst : search.Fits blocks host estimator start (Nat.find hsome) :=
    fun i hi hoverflows => Nat.find_min hsome hi ⟨hi.trans hbefore, hoverflows⟩
  obtain ⟨hscalar, hdue, hnone⟩ := hat
  have hattempts : (search.passes blocks host (Nat.find hsome) start).attempts + 1 =
      (search.passes blocks host (Nat.find hsome + 1) start).attempts := by
    rw [passes_succ, pass, if_pos hscalar]
  refine ⟨_, hattempts.trans_le (attempts_passes_le hbefore), hdue, ⟨_, hnone⟩, ?_⟩
  apply Ends.overflowed (Nat.find hsome) rfl (fun _ _ _ => huncancelled _) hfirst
    ⟨hscalar, hdue, hnone⟩
  obtain ⟨rest, hrest⟩ := Nat.exists_eq_add_of_le (Nat.succ_le_of_lt hbefore)
  rw [hrest] at hmisses
  exact hmisses.take

/-- If a search is cancelled any number of times, wherever that happens, and in the end finds a
key, then a run from its start that nobody cancels finds the same key and address. It takes as
many attempts as all the interrupted runs and leaves the source at the same position. The one
exception is a report that is due before, and whose estimate is no span of time: the uncancelled
run stops there. -/
theorem interruptions_lose_nothing_unless_overflowed {start attempts position : Nat}
    (hinterrupted : Interrupted search blocks start attempts position)
    {limit : Nat} {surroundings : σ} {outcome : Outcome σ}
    (hreturned : search.run blocks host limit position surroundings = some (.ok outcome))
    {found : Match} (hfinds : outcome.found = some found)
    {quiet : Host τ} (huncancelled : ∀ calm, quiet.cancelled calm = false) (calm : τ) :
    (∃ whole : Outcome τ,
        whole.found = some ⟨found.key, found.address, attempts + found.attempts⟩ ∧
        whole.attempts = attempts + found.attempts ∧
        whole.position = outcome.position ∧
        ∃ enough, ∀ limit, enough ≤ limit →
          search.run blocks quiet limit start calm = some (.ok whole)) ∨
      ∃ number < attempts + found.attempts, search.isReportDue number = true ∧
        (∃ later, (search.estimator (quiet.now calm)).progress? (quiet.now later) number = none) ∧
        ∃ enough, ∀ limit, enough ≤ limit →
          search.ending blocks quiet limit start calm = .overflowed number := by
  obtain ⟨count, rfl, rfl, hmisses⟩ := hinterrupted.exists_stretch
  cases ends_of_run hreturned with
  | cancelled => cases hfinds
  | found more hstanding _ _ hscalar hwritten hisIn hmisses' =>
    subst hstanding
    cases hfinds
    rw [position_passes] at hscalar hwritten
    let estimator := search.estimator (quiet.now calm)
    let first : Standing τ := ⟨0, start, calm⟩
    let last := search.passes blocks quiet (count + more) first
    have hposition : last.position = start + count + more := by
      rw [Nat.add_assoc]
      exact search.position_passes ..
    have hattempts : last.attempts =
        (blocks.scalars start count).length + (blocks.scalars (start + count) more).length := by
      rw [← List.length_append, ← blocks.scalars_add, ← Nat.zero_add (List.length _)]
      exact search.attempts_passes ..
    -- all scalars in front of the last one miss, whichever of the runs took them
    have hall : search.AllMiss blocks start (count + more) := hmisses.add hmisses'
    rw [attempts_passes _ _ _ more, Nat.zero_add, ← Nat.add_assoc, ← hattempts]
    by_cases hfits : search.Fits blocks quiet estimator first (count + more)
    · left
      rw [position_passes, ← hposition]
      rw [← hposition] at hscalar hwritten
      have hends : search.Ends blocks quiet estimator first _ :=
        Ends.found (count + more) rfl (fun _ _ _ => huncancelled _) hfits hscalar hwritten hisIn hall
      obtain ⟨enough, hreached⟩ := hends.reaches
      exact ⟨_, rfl, rfl, rfl, enough, fun limit hlimit =>
        (Ending.result?_eq_some_iff ..).mpr (hreached limit hlimit)⟩
    · right
      obtain ⟨number, hle, hdue, hlater, hends⟩ := exists_overflow huncancelled hall hfits
      exact ⟨number, Nat.lt_succ_of_le hle, hdue, hlater, hends.reaches⟩

/-- The first run is cancelled by its first draw, between a block that is no scalar and the scalar
that it still tries. The second one finds the next scalar. No time passes, so that there is an
estimate for the report. -/
theorem interruption_during_redraw :
    let search : Search :=
      ⟨⟨"W508".toList, .p2wpkh, by decide, by decide, by decide⟩, .bitcoin, 1, 0⟩
    let blocks := BlockStream.scripted [.ofNat 32 0, .ofNat 32 2, .ofNat 32 1] []
    let afterDraw : Host Bool := ⟨id, fun _ => true, fun _ => id, fun _ => .zero⟩
    let never : Host Unit := ⟨fun _ => false, id, fun _ => id, fun _ => .zero⟩
    let address := "bc1qw508d6qejxtdg4y5r3zarvary0c5xw7kv8f3t4"
    let found : Match := ⟨⟨.ofNat 32 1, true⟩, address, 1⟩
    search.run blocks afterDraw 4 0 false = some (.ok ⟨none, 1, 2, [⟨1, .zero⟩], true⟩) ∧
      search.run blocks afterDraw 4 2 false = some (.ok ⟨some found, 1, 3, [], true⟩) ∧
      ∃ whole : Outcome Unit, whole.found = some ⟨found.key, address, 2⟩ ∧ whole.attempts = 2 ∧
        whole.position = 3 ∧
        ∃ enough, ∀ limit, enough ≤ limit →
          search.run blocks never limit 0 () = some (.ok whole) := by
  intro search blocks afterDraw never address found
  have hfirst : search.run blocks afterDraw 4 0 false =
      some (.ok ⟨none, 1, 2, [⟨1, .zero⟩], true⟩) := by
    decide +kernel
  have hsecond : search.run blocks afterDraw 4 2 false =
      some (.ok ⟨some found, 1, 3, [], true⟩) := by
    decide +kernel
  have hinterrupted : Interrupted search blocks 0 1 2 := Interrupted.untouched.cancelled hfirst rfl
  refine ⟨hfirst, hsecond, ?_⟩
  have hquiet : ∀ calm, never.cancelled calm = false := fun _ => rfl
  rcases interruptions_lose_nothing_unless_overflowed hinterrupted hsecond rfl hquiet () with
    hwhole | ⟨number, hlt, -, ⟨later, hnone⟩, -⟩
  · exact hwhole
  · have hestimate : ∀ number < 2,
        (search.estimator .zero).progress? .zero number = some ⟨number, .zero⟩ := by
      decide +kernel
    cases (hestimate number hlt).symm.trans hnone

/-- The key that has this pattern is the third one. A run that is cancelled by its first draw and
the run behind it find the key in three attempts. A single run makes a report after two of them,
two milliseconds after its start, and an estimate for a pattern of 33 symbols is no span of time
then. -/
theorem report_for_long_pattern_stops_uninterrupted_search :
    let search : Search :=
      ⟨⟨"BgGZ9tcN4rm9KBzDn7KprQz87SZ26SAMH".toList, .p2pkh, by decide, by decide, by decide⟩,
        .bitcoin, 2, 0⟩
    let blocks := BlockStream.scripted [.ofNat 32 2, .ofNat 32 3, .ofNat 32 1] []
    let clock := fun draws => (Duration.ofNanos? (1000000 * draws)).getD .zero
    let afterDraw : Host Nat := ⟨(0 < ·), (· + 1), fun _ => id, clock⟩
    let never : Host Nat := ⟨fun _ => false, (· + 1), fun _ => id, clock⟩
    let found : Match := ⟨⟨.ofNat 32 1, true⟩, "1BgGZ9tcN4rm9KBzDn7KprQz87SZ26SAMH", 2⟩
    search.run blocks afterDraw 2 0 0 = some (.ok ⟨none, 1, 1, [], 1⟩) ∧
      search.run blocks never 2 1 0 = some (.ok ⟨some found, 2, 3, [], 2⟩) ∧
      ∀ limit, search.run blocks never limit 0 0 = none := by
  intro search blocks clock afterDraw never found
  refine ⟨by decide +kernel, by decide +kernel, fun limit => ?_⟩
  apply Option.eq_none_iff_forall_ne_some.mpr
  intro result hreturned
  have hoverflowed : search.ending blocks never 3 0 0 = .overflowed 2 := by decide +kernel
  cases (ends_of_run hreturned).unique (runFrom_ends hoverflowed nofun)

end BitcoinKeys.Vanity.Search
