import BitcoinKeys.Proofs.Vanity.Pattern
import BitcoinKeys.Proofs.Vanity.Search

/-!
What a search that returned has done. Attempts, draws and reports are counted in three places of the
loop; here they are all given by the blocks of the source that were taken.
-/
namespace BitcoinKeys.Vanity

deriving instance DecidableEq for Outcome, Ending

namespace Search

variable {σ : Type}

/-- An accepted search has the pattern, the network and the interval that it was asked for. -/
theorem ofOptions_eq_ok {options : Options} {search : Search} (h : ofOptions options = .ok search) :
    search.pattern.symbols = options.pattern.toList ∧ search.pattern.kind = options.kind ∧
      search.network = options.network ∧ search.reportEvery = options.reportEvery := by
  obtain ⟨pattern, haccepted, hsame⟩ := (bind_eq_ok_iff ..).mp h
  obtain ⟨hsymbols, hkind⟩ := Pattern.ofText_eq_ok haccepted
  cases hsame
  exact ⟨hsymbols, hkind, rfl, rfl⟩

def multiplesBelow (step bound : Nat) : List Nat :=
  (List.range bound).filter fun n => 0 < n ∧ step ∣ n

/-- The attempts that a report is due at are the multiples of the interval; an interval of zero
has none. -/
theorem filter_isReportDue (search : Search) (last : Nat) :
    (List.range' 1 last).filter (search.isReportDue ·) =
      multiplesBelow search.reportEvery (last + 1) := by
  -- zero is the only number below the bound that is no attempt
  rw [multiplesBelow, List.range_eq_range', List.range'_succ, List.filter_cons_of_neg (by simp)]
  apply List.filter_congr
  intro n hn
  have hpositive : 0 < n := (List.mem_range'_1.mp hn).1
  simp only [isReportDue, Nat.dvd_iff_mod_eq_zero]
  by_cases hnone : search.reportEvery = 0
  · simp [hnone, hpositive.ne']
  · simp [Nat.pos_of_ne_zero hnone, hpositive]

section Reports

variable {search : Search} {blocks : BlockStream} {host : Host σ} {estimator : Estimator}

theorem map_reportAfter {number : Nat} {surroundings : σ}
    (hfits : ¬search.Overflows host estimator number surroundings) :
    (search.reportAfter host estimator number surroundings).map Progress.attempts =
      [number].filter (search.isReportDue ·) := by
  rw [reportAfter]
  by_cases hdue : search.isReportDue number = true
  · obtain ⟨progress, hprogress⟩ :=
      Option.ne_none_iff_exists'.mp fun hnone => hfits ⟨hdue, hnone⟩
    simp [hdue, hprogress, estimator.attempts_eq hprogress]
  · simp [hdue]

/-- As long as every estimate is a span of time, a report follows each attempt at which one is
due. -/
theorem map_reportsOf {start : Standing σ} {count : Nat}
    (hfits : search.Fits blocks host estimator start count) :
    (search.reportsOf blocks host estimator start count).map Progress.attempts =
      (List.range' (start.attempts + 1) (blocks.scalars start.position count).length).filter
        (search.isReportDue ·) := by
  induction count with
  | zero => rfl
  | succ count ih =>
    have hlast := hfits count (Nat.lt_succ_self count)
    have hattempts := search.attempts_passes blocks host count start
    rw [reportsOf_succ, List.map_append, ih fun i hi => hfits i (Nat.lt_succ_of_lt hi), reportAt,
      position_passes, blocks.scalars_succ]
    by_cases hscalar : blocks.HasScalar (start.position + count)
    · have hat : blocks.HasScalar (search.passes blocks host count start).position := by
        rwa [position_passes]
      rw [if_pos hscalar, if_pos hscalar, map_reportAfter fun h => hlast ⟨hat, h⟩, hattempts,
        List.length_append, List.length_singleton, List.range'_1_concat, List.filter_append,
        Nat.add_right_comm]
    · rw [if_neg hscalar, if_neg hscalar, List.append_nil, List.map_nil, List.append_nil]

end Reports

/-- A search that returns a key has taken `before` blocks and then the scalar of the key, which is
the first one whose address has the pattern. -/
structure Finds (options : Options) (search : Search) (blocks : BlockStream) (host : Host σ)
    (start : Standing σ) (before : Nat) (found : Match) (outcome : Outcome σ) : Prop where
  position : outcome.position = start.position + before + 1
  scalar : blocks.HasScalar (start.position + before)
  key : found.key = ⟨blocks (start.position + before), true⟩
  attempts : found.attempts = (blocks.scalars start.position before).length + 1
  attempts_eq : outcome.attempts = found.attempts
  address : ∃ publicKey, PublicKey.derive found.key = .ok publicKey ∧
    Address.encode ⟨publicKey, options.kind, options.network⟩ = .ok found.address
  isIn : search.pattern.isIn found.address = true
  misses : search.AllMiss blocks start.position before
  reports : outcome.reports = multiplesBelow options.reportEvery found.attempts
  goesOn : search.GoesOn blocks host start (before + 1)
  surroundings : outcome.surroundings =
    host.drawn (search.passes blocks host before start).surroundings

/-- A search that was cancelled has taken `count` blocks up to a scalar, or none at all, and read
the flag behind them. -/
structure Stops (options : Options) (search : Search) (blocks : BlockStream) (host : Host σ)
    (start : Standing σ) (count : Nat) (outcome : Outcome σ) : Prop where
  position : outcome.position = start.position + count
  last : IsAsked blocks start.position count
  attempts : outcome.attempts = (blocks.scalars start.position count).length
  untouched : outcome.attempts = 0 → count = 0
  misses : search.AllMiss blocks start.position count
  reports : outcome.reports = multiplesBelow options.reportEvery (outcome.attempts + 1)
  goesOn : search.GoesOn blocks host start count
  surroundings : outcome.surroundings = (search.passes blocks host count start).surroundings
  flag : host.cancelled outcome.surroundings = true

variable {options : Options} {search : Search} {blocks : BlockStream} {host : Host σ}

/-- A search that took a block up to a scalar has made an attempt. -/
theorem count_eq_zero_of_scalars {start count : Nat} (hlast : IsAsked blocks start count)
    (hnone : (blocks.scalars start count).length = 0) : count = 0 := by
  cases count with
  | zero => rfl
  | succ count =>
    have hscalar : blocks.HasScalar (start + count) := hlast
    rw [blocks.scalars_succ, if_pos hscalar, List.length_append] at hnone
    cases hnone

/-- A run that returned has ended in one of the ways in which a search may end. -/
theorem ends_of_run {limit position : Nat} {surroundings : σ} {result : Except Error (Outcome σ)}
    (h : search.run blocks host limit position surroundings = some result) :
    search.Ends blocks host (search.estimator (host.now surroundings)) ⟨0, position, surroundings⟩
      (.returned result) :=
  runFrom_ends ((Ending.result?_eq_some_iff ..).mp h) nofun

/-- The search for any accepted options never fails. If it returns a key, then that is the first
scalar of the source whose address has the pattern, and the source stands behind it; if it returns
none, then no scalar up to the last one taken has the pattern, and the flag was set behind that. The
attempts are the scalars taken, and the reports the multiples of the interval. -/
theorem run_accounts (haccepted : ofOptions options = .ok search) (blocks : BlockStream)
    (host : Host σ) (limit position : Nat) (surroundings : σ) (result : Except Error (Outcome σ))
    (hreturned : search.run blocks host limit position surroundings = some result) :
    ∃ outcome, result = .ok outcome ∧
      (∀ found, outcome.found = some found → 1 ≤ found.attempts ∧
        ∃ before, Finds options search blocks host ⟨0, position, surroundings⟩ before found outcome) ∧
      (outcome.found = none →
        ∃ count, Stops options search blocks host ⟨0, position, surroundings⟩ count outcome) := by
  obtain ⟨-, hkind, hnetwork, hreportEvery⟩ := ofOptions_eq_ok haccepted
  have hends := ends_of_run hreturned
  have hattempts (count : Nat) :
      (search.passes blocks host count ⟨0, position, surroundings⟩).attempts =
        (blocks.scalars position count).length := by
    rw [attempts_passes, Nat.zero_add]
  cases hends with
  | cancelled count hstanding hgoesOn hfits hasked hflag hmisses =>
    subst hstanding
    -- the flag was read behind `count` blocks, at the start or behind a scalar
    refine ⟨_, rfl, nofun, fun _ => ⟨count, ?_⟩⟩
    have hreports := map_reportsOf hfits
    rw [filter_isReportDue, hreportEvery] at hreports
    exact {
      position := search.position_passes ..
      last := hasked
      attempts := hattempts count
      untouched := fun hnone => count_eq_zero_of_scalars hasked (hattempts count ▸ hnone)
      misses := hmisses
      reports := by
        rw [hattempts]
        exact hreports
      goesOn := hgoesOn
      surroundings := rfl
      flag := hflag }
  | found count hstanding hgoesOn hfits hscalar hwritten hisIn hmisses =>
    subst hstanding
    rw [position_passes] at hscalar hwritten
    rw [hkind, hnetwork] at hwritten
    have hreports := map_reportsOf hfits
    rw [filter_isReportDue, hreportEvery] at hreports
    -- the key is the block behind `count` others, among which no scalar has the pattern
    refine ⟨_, rfl, ?_, nofun⟩
    intro found hfound
    cases hfound
    refine ⟨Nat.le_add_left .., count, ?_⟩
    exact {
      position := by rw [position_passes]
      scalar := hscalar
      key := by rw [position_passes]
      attempts := by rw [hattempts]
      attempts_eq := rfl
      address := by
        rw [position_passes]
        exact (Address.ofPrivateKey_eq_ok_iff ..).mp hwritten
      isIn := hisIn
      misses := hmisses
      reports := by
        rw [hattempts]
        exact hreports
      goesOn := hgoesOn
      surroundings := rfl }

/-- The first block of this source is no scalar, and the first of its two scalars misses. -/
theorem run_accounts_second_scalar :
    let options : Options := ⟨"W508", .p2wpkh, .bitcoin, 1, 0⟩
    let blocks := BlockStream.scripted [.ofNat 32 0, .ofNat 32 2, .ofNat 32 1] []
    let host : Host Unit := ⟨fun _ => false, id, fun _ => id, fun _ => .zero⟩
    let found : Match := ⟨⟨.ofNat 32 1, true⟩, "bc1qw508d6qejxtdg4y5r3zarvary0c5xw7kv8f3t4", 2⟩
    let outcome : Outcome Unit := ⟨some found, 2, 3, [⟨1, .zero⟩], ()⟩
    ∃ search, ofOptions options = .ok search ∧ search.run blocks host 4 0 () = some (.ok outcome) ∧
      ∃ before, Finds options search blocks host ⟨0, 0, ()⟩ before found outcome := by
  intro options blocks host found outcome
  let search : Search := ⟨⟨"W508".toList, .p2wpkh, by decide, by decide, by decide⟩, .bitcoin, 1, 0⟩
  have haccepted : ofOptions options = .ok search := by decide +kernel
  have hreturned : search.run blocks host 4 0 () = some (.ok outcome) := by decide +kernel
  obtain ⟨_, hsame, hfinds, -⟩ := run_accounts haccepted blocks host 4 0 () (.ok outcome) hreturned
  cases hsame
  exact ⟨search, haccepted, hreturned, (hfinds found rfl).2⟩

end Search
end BitcoinKeys.Vanity
