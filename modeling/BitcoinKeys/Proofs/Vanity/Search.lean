import BitcoinKeys.Vanity.Search
import BitcoinKeys.Proofs.Address
import BitcoinKeys.Proofs.BlockStream
import BitcoinKeys.Proofs.PublicKey

/-!
A search, block by block. A block that is no scalar only takes the source further; a scalar is an
attempt, after which a report may follow and the cancel flag is read again. The whole search is some
number of such steps, and what ends it.
-/
namespace BitcoinKeys.Vanity

structure Standing (σ : Type) where
  attempts : Nat
  position : Nat
  surroundings : σ

theorem Estimator.attempts_eq (estimator : Estimator) {now : Duration} {attempts : Nat}
    {progress : Progress} (h : estimator.progress? now attempts = some progress) :
    progress.attempts = attempts := by
  obtain ⟨remaining, -, rfl⟩ := Option.map_eq_some_iff.mp h
  rfl

namespace Ending

variable {σ : Type}

@[simp] theorem behindReport_none (attempts : Nat) (rest : Ending σ) :
    behindReport attempts none rest = overflowed attempts := rfl

@[simp] theorem behindReport_some (attempts : Nat) (progress : Progress) (rest : Ending σ) :
    behindReport attempts (some progress) rest = rest.map (Outcome.afterReport progress) := rfl

def behind (reports : List Progress) (ending : Ending σ) : Ending σ :=
  ending.map fun rest => { rest with progress := reports ++ rest.progress }

@[simp] theorem behind_returned_ok (reports : List Progress) (rest : Outcome σ) :
    (returned (.ok rest)).behind reports =
      returned (.ok { rest with progress := reports ++ rest.progress }) := rfl

@[simp] theorem behind_nil (ending : Ending σ) : ending.behind [] = ending := by
  cases ending with
  | returned result => cases result <;> rfl
  | _ => rfl

/-- Reports made earlier stand further in front. -/
theorem behind_append (reports more : List Progress) (ending : Ending σ) :
    ending.behind (reports ++ more) = (ending.behind more).behind reports := by
  cases ending with
  | returned result =>
    cases result with
    | error => rfl
    | ok rest => simp only [behind_returned_ok, List.append_assoc]
  | _ => rfl

theorem behind_ne_unfinished {reports : List Progress} {ending : Ending σ}
    (h : ending.behind reports ≠ unfinished) : ending ≠ unfinished := by
  rintro rfl
  exact h rfl

theorem result?_eq_some_iff (ending : Ending σ) (result : Except Error (Outcome σ)) :
    ending.result? = some result ↔ ending = .returned result := by
  cases ending with
  | returned other => simp [result?]
  | _ => simp [result?]

end Ending

namespace Search

variable {σ : Type} (search : Search) (blocks : BlockStream) (host : Host σ) (estimator : Estimator)

def Misses (scalar : FixedBytes 32) : Prop :=
  ∃ address, Address.ofPrivateKey ⟨scalar, true⟩ search.pattern.kind search.network = .ok address ∧
    search.pattern.isIn address = false

def AllMiss (start count : Nat) : Prop := ∀ scalar ∈ blocks.scalars start count, search.Misses scalar

theorem check_of_ofPrivateKey {key : PrivateKey} {address : String}
    (h : Address.ofPrivateKey key search.pattern.kind search.network = .ok address) :
    search.check key = .ok (if search.pattern.isIn address then some address else none) := by
  rw [check, h]
  rfl

def Overflows (number : Nat) (surroundings : σ) : Prop :=
  search.isReportDue number = true ∧ estimator.progress? (host.now surroundings) number = none

def reportAfter (number : Nat) (surroundings : σ) : List Progress :=
  if search.isReportDue number then (estimator.progress? (host.now surroundings) number).toList else []

def afterMiss (number : Nat) (surroundings : σ) : σ :=
  if search.isReportDue number then host.reported number surroundings else surroundings

section Loop

variable {search blocks host estimator}
variable {limit attempts position : Nat} {surroundings : σ}

/-- The flag is read before a key is drawn. -/
theorem runFrom_of_flag (hflag : host.cancelled surroundings = true) :
    search.runFrom blocks host estimator (limit + 1) attempts position surroundings =
      .returned (.ok ⟨none, attempts, position, [], surroundings⟩) := by
  rw [runFrom, if_pos hflag]

theorem runFrom_of_no_draw (hflag : host.cancelled surroundings = false)
    (hdrawn : blocks.drawKey host.drawn (limit + 1) position surroundings = none) :
    search.runFrom blocks host estimator (limit + 1) attempts position surroundings =
      .unfinished := by
  rw [runFrom, hflag, hdrawn]
  rfl

variable (search) in
/-- A drawn key is a scalar in range, so its address can be written. -/
theorem exists_address_of_drawKey {draw : Draw σ}
    (hdrawn : blocks.drawKey host.drawn limit position surroundings = some draw) :
    ∃ address, Address.ofPrivateKey draw.key search.pattern.kind search.network = .ok address := by
  obtain ⟨skipped, -, -, hscalar, rfl⟩ := (blocks.drawKey_eq_some_iff ..).mp hdrawn
  exact Address.exists_ofPrivateKey _ hscalar _ _

section Draw

variable {draw : Draw σ} {address : String} (hflag : host.cancelled surroundings = false)
  (hdrawn : blocks.drawKey host.drawn (limit + 1) position surroundings = some draw)
  (hwritten : Address.ofPrivateKey draw.key search.pattern.kind search.network = .ok address)
include hflag hdrawn hwritten

/-- A match ends the search without a report of it. -/
theorem runFrom_of_match (hisIn : search.pattern.isIn address = true) :
    search.runFrom blocks host estimator (limit + 1) attempts position surroundings =
      .returned (.ok ⟨some ⟨draw.key, address, attempts + 1⟩, attempts + 1, draw.position, [],
        draw.surroundings⟩) := by
  rw [runFrom, if_neg (Bool.not_eq_true _ ▸ hflag), hdrawn]
  simp only [search.check_of_ofPrivateKey hwritten, if_pos hisIn]

/-- An attempt in vain is counted before its report is due. -/
theorem runFrom_of_overflow (hisIn : search.pattern.isIn address = false)
    (hoverflows : search.Overflows host estimator (attempts + 1) draw.surroundings) :
    search.runFrom blocks host estimator (limit + 1) attempts position surroundings =
      .overflowed (attempts + 1) := by
  rw [runFrom, if_neg (Bool.not_eq_true _ ▸ hflag), hdrawn]
  simp only [search.check_of_ofPrivateKey hwritten, hisIn, Bool.false_eq_true, if_false,
    if_pos hoverflows.1, hoverflows.2, Ending.behindReport_none]

/-- An attempt in vain, and its report if one is due, stand in front of the rest of the search. -/
theorem runFrom_of_miss (hisIn : search.pattern.isIn address = false)
    (hfits : ¬search.Overflows host estimator (attempts + 1) draw.surroundings) :
    search.runFrom blocks host estimator (limit + 1) attempts position surroundings =
      (search.runFrom blocks host estimator limit (attempts + 1) draw.position
        (search.afterMiss host (attempts + 1) draw.surroundings)).behind
          (search.reportAfter host estimator (attempts + 1) draw.surroundings) := by
  rw [runFrom, if_neg (Bool.not_eq_true _ ▸ hflag), hdrawn]
  simp only [search.check_of_ofPrivateKey hwritten, hisIn, Bool.false_eq_true, if_false]
  by_cases hdue : search.isReportDue (attempts + 1) = true
  · cases hprogress : estimator.progress? (host.now draw.surroundings) (attempts + 1) with
    | none => exact absurd ⟨hdue, hprogress⟩ hfits
    | some progress =>
      simp only [afterMiss, reportAfter, if_pos hdue, hprogress, Ending.behindReport_some]
      rfl
  · simp only [afterMiss, reportAfter, if_neg hdue, Ending.behind_nil]

end Draw

end Loop

def pass (standing : Standing σ) : Standing σ :=
  let drawn := host.drawn standing.surroundings
  let number := standing.attempts + 1
  if blocks.HasScalar standing.position then
    ⟨number, standing.position + 1, search.afterMiss host number drawn⟩
  else ⟨standing.attempts, standing.position + 1, drawn⟩

def passes (count : Nat) (start : Standing σ) : Standing σ := (search.pass blocks host)^[count] start

theorem passes_succ (count : Nat) (start : Standing σ) :
    search.passes blocks host (count + 1) start =
      search.pass blocks host (search.passes blocks host count start) :=
  Function.iterate_succ_apply' ..

/-- Passes in a row can be cut anywhere. -/
theorem passes_add (count more : Nat) (start : Standing σ) :
    search.passes blocks host (count + more) start =
      search.passes blocks host more (search.passes blocks host count start) := by
  rw [Nat.add_comm]
  exact Function.iterate_add_apply ..

@[simp]
theorem position_pass (standing : Standing σ) :
    (search.pass blocks host standing).position = standing.position + 1 := by
  simp only [pass]
  split <;> rfl

@[simp]
theorem position_passes (count : Nat) (start : Standing σ) :
    (search.passes blocks host count start).position = start.position + count := by
  induction count with
  | zero => rfl
  | succ count ih => rw [passes_succ, position_pass, ih, Nat.add_assoc]

/-- The attempts are the scalars among the blocks. -/
theorem attempts_passes (count : Nat) (start : Standing σ) :
    (search.passes blocks host count start).attempts =
      start.attempts + (blocks.scalars start.position count).length := by
  induction count with
  | zero => rfl
  | succ count ih =>
    rw [passes_succ, pass, position_passes, BlockStream.scalars_succ, List.length_append,
      ← Nat.add_assoc, ← ih]
    -- both sides grow by one at a scalar and stay as they are at any other block
    by_cases hscalar : blocks.HasScalar (start.position + count)
    · rw [if_pos hscalar, if_pos hscalar]
      rfl
    · rw [if_neg hscalar, if_neg hscalar]
      rfl

/-- Blocks that are no scalars change nothing but the position and what a draw changes. -/
theorem passes_of_skipped {skipped : Nat} {start : Standing σ}
    (hinvalid : ∀ i < skipped, ¬blocks.HasScalar (start.position + i)) :
    search.passes blocks host skipped start =
      ⟨start.attempts, start.position + skipped, host.drawn^[skipped] start.surroundings⟩ := by
  induction skipped with
  | zero => rfl
  | succ skipped ih =>
    rw [passes_succ, ih fun i hi => hinvalid i (Nat.lt_succ_of_lt hi), pass,
      if_neg (hinvalid skipped (Nat.lt_succ_self _)), Function.iterate_succ_apply']
    rfl

/-- The next scalar is an attempt, whatever blocks are passed over in front of it. -/
theorem passes_of_scalar {skipped : Nat} {start : Standing σ}
    (hinvalid : ∀ i < skipped, ¬blocks.HasScalar (start.position + i))
    (hscalar : blocks.HasScalar (start.position + skipped)) :
    search.passes blocks host (skipped + 1) start =
      ⟨start.attempts + 1, start.position + skipped + 1, search.afterMiss host (start.attempts + 1)
        (host.drawn (host.drawn^[skipped] start.surroundings))⟩ := by
  rw [passes_succ, passes_of_skipped search blocks host hinvalid, pass, if_pos hscalar]

/-- Whether the cancel flag is read after so many blocks: at the start and after every scalar. -/
def IsAsked (start : Nat) : Nat → Prop
  | 0 => True
  | count + 1 => blocks.HasScalar (start + count)

def GoesOn (start : Standing σ) (count : Nat) : Prop :=
  ∀ i < count, IsAsked blocks start.position i →
    host.cancelled (search.passes blocks host i start).surroundings = false

def OverflowsAt (standing : Standing σ) : Prop :=
  blocks.HasScalar standing.position ∧
    search.Overflows host estimator (standing.attempts + 1) (host.drawn standing.surroundings)

def Fits (start : Standing σ) (count : Nat) : Prop :=
  ∀ i < count, ¬search.OverflowsAt blocks host estimator (search.passes blocks host i start)

def reportAt (standing : Standing σ) : List Progress :=
  if blocks.HasScalar standing.position then
    search.reportAfter host estimator (standing.attempts + 1) (host.drawn standing.surroundings)
  else []

def reportsOf (start : Standing σ) (count : Nat) : List Progress :=
  (List.range count).flatMap fun i =>
    search.reportAt blocks host estimator (search.passes blocks host i start)

theorem reportsOf_add (start : Standing σ) (count more : Nat) :
    search.reportsOf blocks host estimator start (count + more) =
      search.reportsOf blocks host estimator start count ++
        search.reportsOf blocks host estimator (search.passes blocks host count start) more := by
  simp only [reportsOf, List.range_add, List.flatMap_append, List.flatMap_map, passes_add]

theorem reportsOf_succ (start : Standing σ) (count : Nat) :
    search.reportsOf blocks host estimator start (count + 1) =
      search.reportsOf blocks host estimator start count ++
        search.reportAt blocks host estimator (search.passes blocks host count start) := by
  rw [reportsOf_add]
  simp [reportsOf, passes]

inductive Ends (start : Standing σ) : Ending σ → Prop
  | cancelled (count : Nat) {last : Standing σ} (standing : search.passes blocks host count start = last)
      (goesOn : search.GoesOn blocks host start count)
      (fits : search.Fits blocks host estimator start count)
      (asked : IsAsked blocks start.position count) (flag : host.cancelled last.surroundings = true)
      (misses : search.AllMiss blocks start.position count) :
      Ends start (.returned (.ok ⟨none, last.attempts, last.position,
        search.reportsOf blocks host estimator start count, last.surroundings⟩))
  | found (count : Nat) {last : Standing σ} (standing : search.passes blocks host count start = last)
      (goesOn : search.GoesOn blocks host start (count + 1))
      (fits : search.Fits blocks host estimator start count) (scalar : blocks.HasScalar last.position)
      {address : String}
      (written : Address.ofPrivateKey ⟨blocks last.position, true⟩ search.pattern.kind search.network
        = .ok address)
      (isIn : search.pattern.isIn address = true)
      (misses : search.AllMiss blocks start.position count) :
      Ends start (.returned (.ok ⟨some ⟨⟨blocks last.position, true⟩, address, last.attempts + 1⟩,
        last.attempts + 1, last.position + 1, search.reportsOf blocks host estimator start count,
        host.drawn last.surroundings⟩))
  | overflowed (count : Nat) {last : Standing σ}
      (standing : search.passes blocks host count start = last)
      (goesOn : search.GoesOn blocks host start (count + 1))
      (fits : search.Fits blocks host estimator start count)
      (overflows : search.OverflowsAt blocks host estimator last)
      (misses : search.AllMiss blocks start.position (count + 1)) :
      Ends start (.overflowed (last.attempts + 1))

variable {search blocks host estimator}

/-- A stretch at whose end the flag is read can be put in front of another. -/
theorem IsAsked.add {start count more : Nat} (hasked : IsAsked blocks start count)
    (hlater : IsAsked blocks (start + count) more) : IsAsked blocks start (count + more) := by
  cases more with
  | zero => exact hasked
  | succ more => rwa [IsAsked, Nat.add_assoc] at hlater

theorem IsAsked.of_add {start count more : Nat} (h : IsAsked blocks start (count + more)) :
    IsAsked blocks (start + count) more := by
  cases more with
  | zero => trivial
  | succ more => rwa [IsAsked, Nat.add_assoc]

theorem GoesOn.add {start : Standing σ} {count more : Nat}
    (hbefore : search.GoesOn blocks host start count)
    (hlater : search.GoesOn blocks host (search.passes blocks host count start) more) :
    search.GoesOn blocks host start (count + more) := by
  intro i hi hasked
  -- a later reading of the flag is one of the second stretch, and its first one is that at its start
  by_cases hearly : i < count
  · exact hbefore i hearly hasked
  · obtain ⟨j, rfl⟩ := Nat.exists_eq_add_of_le (Nat.le_of_not_lt hearly)
    rw [passes_add]
    apply hlater j (by omega)
    rw [position_passes]
    exact hasked.of_add

theorem Fits.add {start : Standing σ} {count more : Nat}
    (hbefore : search.Fits blocks host estimator start count)
    (hlater : search.Fits blocks host estimator (search.passes blocks host count start) more) :
    search.Fits blocks host estimator start (count + more) := by
  intro i hi
  by_cases hearly : i < count
  · exact hbefore i hearly
  · obtain ⟨j, rfl⟩ := Nat.exists_eq_add_of_le (Nat.le_of_not_lt hearly)
    rw [passes_add]
    exact hlater j (by omega)

theorem AllMiss.add {start count more : Nat} (hbefore : search.AllMiss blocks start count)
    (hlater : search.AllMiss blocks (start + count) more) :
    search.AllMiss blocks start (count + more) := by
  rw [AllMiss, BlockStream.scalars_add]
  exact List.forall_mem_append.mpr ⟨hbefore, hlater⟩

/-- A search goes on from the standing behind some attempts in vain as one that starts there. -/
theorem Ends.of_passes {start : Standing σ} {count : Nat} {ending : Ending σ}
    (hgoesOn : search.GoesOn blocks host start count)
    (hfits : search.Fits blocks host estimator start count)
    (hasked : IsAsked blocks start.position count)
    (hmisses : search.AllMiss blocks start.position count)
    (hends : search.Ends blocks host estimator (search.passes blocks host count start) ending) :
    search.Ends blocks host estimator start
      (ending.behind (search.reportsOf blocks host estimator start count)) := by
  have hposition := search.position_passes blocks host count start
  -- however it ends, both stretches together are one stretch without a match
  cases hends with
  | cancelled more hstanding hlater hfits' hasked' hflag hmisses' =>
    subst hstanding
    rw [hposition] at hasked' hmisses'
    have hwhole := Ends.cancelled (count + more) (passes_add ..) (hgoesOn.add hlater)
      (hfits.add hfits') (hasked.add hasked') hflag (hmisses.add hmisses')
    rwa [reportsOf_add] at hwhole
  | found more hstanding hlater hfits' hscalar hwritten hisIn hmisses' =>
    subst hstanding
    rw [hposition] at hmisses'
    have hwhole := Ends.found (count + more) (passes_add ..) (hgoesOn.add hlater) (hfits.add hfits')
      hscalar hwritten hisIn (hmisses.add hmisses')
    rwa [reportsOf_add] at hwhole
  | overflowed more hstanding hlater hfits' hoverflows hmisses' =>
    subst hstanding
    rw [hposition] at hmisses'
    exact Ends.overflowed (count + more) (passes_add ..) (hgoesOn.add hlater) (hfits.add hfits')
      hoverflows (hmisses.add hmisses')

section Step

variable (start : Standing σ) {skipped : Nat}

theorem Ends.of_flag (hflag : host.cancelled start.surroundings = true) :
    search.Ends blocks host estimator start
      (.returned (.ok ⟨none, start.attempts, start.position, [], start.surroundings⟩)) :=
  Ends.cancelled 0 rfl nofun nofun trivial hflag nofun

variable {start} (hflag : host.cancelled start.surroundings = false)
  (hinvalid : ∀ i < skipped, ¬blocks.HasScalar (start.position + i))

/-- Between two scalars the flag is not read. -/
theorem goesOn_of_skipped (hflag : host.cancelled start.surroundings = false)
    (hinvalid : ∀ i < skipped, ¬blocks.HasScalar (start.position + i)) :
    search.GoesOn blocks host start (skipped + 1) := by
  intro i hi hasked
  cases i with
  | zero => exact hflag
  | succ i => exact absurd hasked (hinvalid i (by omega))

/-- Between two scalars nothing is reported. -/
theorem fits_of_skipped (hinvalid : ∀ i < skipped, ¬blocks.HasScalar (start.position + i)) :
    search.Fits blocks host estimator start skipped := by
  intro i hi hoverflows
  have hscalar := hoverflows.1
  rw [position_passes] at hscalar
  exact hinvalid i hi hscalar

theorem reportsOf_of_skipped (hinvalid : ∀ i < skipped, ¬blocks.HasScalar (start.position + i)) :
    search.reportsOf blocks host estimator start skipped = [] := by
  apply List.flatMap_eq_nil_iff.mpr
  intro i hi
  rw [reportAt, position_passes, if_neg (hinvalid i (List.mem_range.mp hi))]

/-- The next scalar has the only report. -/
theorem reportsOf_of_scalar (hinvalid : ∀ i < skipped, ¬blocks.HasScalar (start.position + i))
    (hscalar : blocks.HasScalar (start.position + skipped)) :
    search.reportsOf blocks host estimator start (skipped + 1) =
      search.reportAfter host estimator (start.attempts + 1)
        (host.drawn (host.drawn^[skipped] start.surroundings)) := by
  rw [reportsOf_succ, reportsOf_of_skipped hinvalid, List.nil_append,
    search.passes_of_skipped blocks host hinvalid, reportAt, if_pos hscalar]

variable (hscalar : blocks.HasScalar (start.position + skipped))
include hflag hinvalid hscalar

variable (start) in
/-- A search may end at its first scalar. -/
theorem Ends.of_match {address : String}
    (hwritten : Address.ofPrivateKey ⟨blocks (start.position + skipped), true⟩ search.pattern.kind
      search.network = .ok address)
    (hisIn : search.pattern.isIn address = true) :
    search.Ends blocks host estimator start (.returned (.ok
      ⟨some ⟨⟨blocks (start.position + skipped), true⟩, address, start.attempts + 1⟩,
        start.attempts + 1, start.position + skipped + 1, [],
        host.drawn (host.drawn^[skipped] start.surroundings)⟩)) := by
  rw [← reportsOf_of_skipped hinvalid]
  apply Ends.found skipped (passes_of_skipped _ _ _ hinvalid) (goesOn_of_skipped hflag hinvalid)
    (fits_of_skipped hinvalid) hscalar hwritten hisIn
  rw [AllMiss, blocks.scalars_of_skipped hinvalid]
  exact nofun

omit hflag in
theorem allMiss_of_miss (hmiss : search.Misses (blocks (start.position + skipped))) :
    search.AllMiss blocks start.position (skipped + 1) := by
  rw [AllMiss, blocks.scalars_succ, blocks.scalars_of_skipped hinvalid, if_pos hscalar]
  simpa using hmiss

variable (start) in
theorem Ends.of_overflow (hmiss : search.Misses (blocks (start.position + skipped)))
    (hoverflows : search.Overflows host estimator (start.attempts + 1)
      (host.drawn (host.drawn^[skipped] start.surroundings))) :
    search.Ends blocks host estimator start (.overflowed (start.attempts + 1)) := by
  have hskipped := search.passes_of_skipped blocks host hinvalid
  have hat : search.OverflowsAt blocks host estimator
      ⟨start.attempts, start.position + skipped, host.drawn^[skipped] start.surroundings⟩ :=
    ⟨hscalar, hoverflows⟩
  have hends := Ends.overflowed skipped hskipped (goesOn_of_skipped hflag hinvalid)
    (fits_of_skipped hinvalid) hat (allMiss_of_miss hinvalid hscalar hmiss)
  exact hends

variable (start) in
/-- An attempt in vain, and its report if one is due, stand in front of the rest of the search. -/
theorem Ends.of_miss (hmiss : search.Misses (blocks (start.position + skipped)))
    (hfits : ¬search.Overflows host estimator (start.attempts + 1)
      (host.drawn (host.drawn^[skipped] start.surroundings))) {ending : Ending σ}
    (hends : search.Ends blocks host estimator ⟨start.attempts + 1, start.position + skipped + 1,
      search.afterMiss host (start.attempts + 1)
        (host.drawn (host.drawn^[skipped] start.surroundings))⟩ ending) :
    search.Ends blocks host estimator start (ending.behind
      (search.reportAfter host estimator (start.attempts + 1)
        (host.drawn (host.drawn^[skipped] start.surroundings)))) := by
  have hskipped := search.passes_of_skipped blocks host hinvalid
  have hwhole : search.Fits blocks host estimator start (skipped + 1) := by
    apply (fits_of_skipped hinvalid).add
    rw [hskipped]
    intro i hi hoverflows
    obtain rfl := Nat.lt_one_iff.mp hi
    exact hfits hoverflows.2
  rw [← search.passes_of_scalar blocks host hinvalid hscalar] at hends
  rw [← reportsOf_of_scalar hinvalid hscalar]
  exact Ends.of_passes (goesOn_of_skipped hflag hinvalid) hwhole hscalar
    (allMiss_of_miss hinvalid hscalar hmiss) hends

end Step

/-- A search never fails, and if it is finished, it has ended in one of the ways in which it may
end. -/
theorem runFrom_ends {limit attempts position : Nat} {surroundings : σ} {ending : Ending σ}
    (h : search.runFrom blocks host estimator limit attempts position surroundings = ending)
    (hfinished : ending ≠ .unfinished) :
    search.Ends blocks host estimator ⟨attempts, position, surroundings⟩ ending := by
  induction limit generalizing attempts position surroundings ending with
  | zero => exact absurd h.symm hfinished
  | succ limit ih =>
    let start : Standing σ := ⟨attempts, position, surroundings⟩
    subst h
    cases hflag : host.cancelled surroundings with
    | true =>
      rw [runFrom_of_flag hflag]
      exact Ends.of_flag start hflag
    | false =>
      cases hdrawn : blocks.drawKey host.drawn (limit + 1) position surroundings with
      | none => exact absurd (runFrom_of_no_draw hflag hdrawn) hfinished
      | some draw =>
        obtain ⟨address, hwritten⟩ := search.exists_address_of_drawKey hdrawn
        obtain ⟨skipped, -, hinvalid, hscalar, hdraw⟩ := (blocks.drawKey_eq_some_iff ..).mp hdrawn
        cases hisIn : search.pattern.isIn address with
        | true =>
          -- the loop is left with this key
          rw [runFrom_of_match hflag hdrawn hwritten hisIn]
          subst hdraw
          exact Ends.of_match start hflag hinvalid hscalar hwritten hisIn
        | false =>
          by_cases hoverflows : search.Overflows host estimator (attempts + 1) draw.surroundings
          · rw [runFrom_of_overflow hflag hdrawn hwritten hisIn hoverflows]
            subst hdraw
            exact Ends.of_overflow start hflag hinvalid hscalar
              ⟨address, hwritten, hisIn⟩ hoverflows
          · -- the rest of the search is one from the standing behind this attempt
            rw [runFrom_of_miss hflag hdrawn hwritten hisIn hoverflows] at hfinished ⊢
            subst hdraw
            apply Ends.of_miss start hflag hinvalid hscalar ⟨address, hwritten, hisIn⟩
              hoverflows
            exact ih rfl (Ending.behind_ne_unfinished hfinished)

end Search
end BitcoinKeys.Vanity
