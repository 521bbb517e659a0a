import BitcoinKeys.Proofs.BlockStream
import BitcoinKeys.Proofs.PublicKey.Derivation
import Mathlib.Data.Nat.Count

/-!
Keys drawn one after the other. Each draw starts behind the block of the one before and ends with the next
block in the range of the scalars, so these blocks are returned in order and none of them is left out.
-/
namespace BitcoinKeys.BlockStream

variable (blocks : BlockStream)

def IsInRange (position : Nat) : Prop :=
  0 < (blocks position).toNat ∧ (blocks position).toNat < Curve.order
deriving Decidable

/-- The test of a block and the range of scalars of the curve are one condition. -/
theorem hasScalar_iff (position : Nat) : blocks.HasScalar position ↔ blocks.IsInRange position :=
  Curve.isScalar_iff _

abbrev inRangeBefore (position : Nat) : Nat := Nat.count blocks.IsInRange position

/-- What the draw with a number, counted from zero, returns: the key of the block in range that as
many others stand in front of, and the number of blocks drawn up to it. -/
structure IsDraw (number : Nat) (key : PrivateKey) (drawn : Nat) (block : Nat) : Prop where
  inRange : blocks.IsInRange block
  before : blocks.inRangeBefore block = number
  key_eq : key = ⟨blocks block, true⟩
  drawn_eq : drawn = block + 1
  derives : ∃ publicKey, PublicKey.derive key = .ok publicKey

variable {blocks}

/-- Blocks that are passed over do not count, and the one behind them does. -/
theorem inRangeBefore_of_skipped {position skipped : Nat}
    (hinvalid : ∀ i < skipped, ¬blocks.HasScalar (position + i)) :
    blocks.inRangeBefore (position + skipped) = blocks.inRangeBefore position := by
  have hnone : Nat.count (fun i => blocks.IsInRange (position + i)) skipped = 0 := by
    apply Nat.count_iff_forall_not.mpr
    intro i hbelow hinRange
    exact hinvalid i hbelow ((blocks.hasScalar_iff _).mpr hinRange)
  rw [inRangeBefore, Nat.count_add, hnone, Nat.add_zero]

/-- One draw takes the next block in range, and exactly one. -/
theorem isDraw_of_drawKey {limit position : Nat} {draw : Draw Unit}
    (hreturned : blocks.drawKey id limit position () = some draw) :
    (∃ block, blocks.IsDraw (blocks.inRangeBefore position) draw.key draw.position block) ∧
      blocks.inRangeBefore draw.position = blocks.inRangeBefore position + 1 := by
  obtain ⟨skipped, -, hinvalid, hscalar, rfl⟩ := (blocks.drawKey_eq_some_iff ..).mp hreturned
  have hinRange := (blocks.hasScalar_iff _).mp hscalar
  have hbefore := inRangeBefore_of_skipped hinvalid
  constructor
  · exact ⟨position + skipped, hinRange, hbefore, rfl, rfl, PublicKey.exists_derive hscalar⟩
  · rw [← hbefore]
    exact Nat.count_succ_eq_succ_count_iff.mpr hinRange

theorem drawKeys_succ_eq_some_iff {limit count position : Nat} {drawn : List (PrivateKey × Nat)} :
    blocks.drawKeys limit (count + 1) position = some drawn ↔
      ∃ draw others, blocks.drawKey id limit position () = some draw ∧
        blocks.drawKeys limit count draw.position = some others ∧
        drawn = (draw.key, draw.position) :: others := by
  constructor
  · intro hreturned
    obtain ⟨draw, hfirst, hrest⟩ := Option.bind_eq_some_iff.mp hreturned
    obtain ⟨others, hlater, hsame⟩ := Option.bind_eq_some_iff.mp hrest
    exact ⟨draw, others, hfirst, hlater, (Option.some.inj hsame).symm⟩
  · intro ⟨draw, others, hfirst, hlater, hsame⟩
    apply Option.bind_eq_some_iff.mpr
    refine ⟨draw, hfirst, Option.bind_eq_some_iff.mpr ⟨others, hlater, ?_⟩⟩
    rw [hsame]
    rfl

/-- The draws from a position on are numbered on from the blocks in range in front of it. -/
theorem isDraw_of_drawKeys {limit count position : Nat} {drawn : List (PrivateKey × Nat)}
    (hreturned : blocks.drawKeys limit count position = some drawn) :
    drawn.length = count ∧ ∀ i (hbelow : i < drawn.length),
      ∃ block, blocks.IsDraw (blocks.inRangeBefore position + i) drawn[i].1 drawn[i].2 block := by
  induction count generalizing position drawn with
  | zero =>
    cases hreturned
    exact ⟨rfl, nofun⟩
  | succ count ih =>
    obtain ⟨draw, others, hfirst, hlater, rfl⟩ := drawKeys_succ_eq_some_iff.mp hreturned
    obtain ⟨hisDraw, hnext⟩ := isDraw_of_drawKey hfirst
    obtain ⟨hlength, hisDraws⟩ := ih hlater
    rw [hnext] at hisDraws
    refine ⟨congrArg (· + 1) hlength, ?_⟩
    intro i hbelow
    cases i with
    | zero => exact hisDraw
    | succ i =>
      have hlater := hisDraws i (Nat.lt_of_succ_lt_succ hbelow)
      rwa [Nat.add_right_comm] at hlater

/-- A larger limit changes nothing once all draws have returned. -/
theorem drawKeys_of_le {limit larger count position : Nat} {drawn : List (PrivateKey × Nat)}
    (hle : limit ≤ larger) (hreturned : blocks.drawKeys limit count position = some drawn) :
    blocks.drawKeys larger count position = some drawn := by
  induction count generalizing position drawn with
  | zero => exact hreturned
  | succ count ih =>
    obtain ⟨draw, others, hfirst, hlater, hsame⟩ := drawKeys_succ_eq_some_iff.mp hreturned
    apply drawKeys_succ_eq_some_iff.mpr
    exact ⟨draw, others, blocks.drawKey_of_le hle hfirst, ih hlater, hsame⟩

/-- The next draw returns if any block in range is left. -/
theorem exists_drawKey {position last : Nat}
    (hmore : blocks.inRangeBefore position < blocks.inRangeBefore last) :
    ∃ limit draw, blocks.drawKey id limit position () = some draw := by
  obtain ⟨block, ⟨habove, -⟩, hinRange⟩ := Nat.exists_of_count_lt_count hmore
  have hlater : ∃ i, blocks.HasScalar (position + i) := by
    refine ⟨block - position, ?_⟩
    rw [Nat.add_sub_cancel' habove]
    exact (blocks.hasScalar_iff block).mpr hinRange
  -- the draw ends with the first of these blocks
  have hfirst : ∃ draw, blocks.drawKey id (Nat.find hlater + 1) position () = some draw := by
    simp only [drawKey_eq_some_iff]
    exact ⟨_, Nat.find hlater, Nat.lt_succ_self _, fun i hbelow => Nat.find_min hlater hbelow,
      Nat.find_spec hlater, rfl⟩
  exact ⟨_, hfirst⟩

theorem exists_drawKeys {count position last : Nat}
    (henough : blocks.inRangeBefore position + count ≤ blocks.inRangeBefore last) :
    ∃ limit drawn, blocks.drawKeys limit count position = some drawn := by
  induction count generalizing position with
  | zero => exact ⟨0, [], rfl⟩
  | succ count ih =>
    have hmore : blocks.inRangeBefore position < blocks.inRangeBefore last := by omega
    obtain ⟨limit, draw, hfirst⟩ := exists_drawKey hmore
    obtain ⟨-, hnext⟩ := isDraw_of_drawKey hfirst
    have hleft : blocks.inRangeBefore draw.position + count ≤ blocks.inRangeBefore last := by omega
    obtain ⟨limit', others, hlater⟩ := ih hleft
    refine ⟨max limit limit', (draw.key, draw.position) :: others, ?_⟩
    apply drawKeys_succ_eq_some_iff.mpr
    exact ⟨draw, others, blocks.drawKey_of_le (le_max_left ..) hfirst,
      drawKeys_of_le (le_max_right ..) hlater, rfl⟩

variable (blocks)

/-- Draws can wait for ever only if the source runs out of blocks in range. -/
theorem exists_drawKeys_iff (count : Nat) :
    (∃ limit drawn, blocks.drawKeys limit count 0 = some drawn) ↔
      ∃ last, count ≤ blocks.inRangeBefore last := by
  constructor
  · intro ⟨limit, drawn, hreturned⟩
    obtain ⟨hlength, hisDraws⟩ := isDraw_of_drawKeys hreturned
    cases count with
    | zero => exact ⟨0, Nat.zero_le _⟩
    | succ count =>
      obtain ⟨block, hisDraw⟩ := hisDraws count (by omega)
      refine ⟨block + 1, ?_⟩
      have hnext : blocks.inRangeBefore (block + 1) = blocks.inRangeBefore block + 1 :=
        Nat.count_succ_eq_succ_count_iff.mpr hisDraw.inRange
      have hbefore : blocks.inRangeBefore block = 0 + count := hisDraw.before
      omega
  · intro ⟨last, henough⟩
    have hstart : blocks.inRangeBefore 0 + count ≤ blocks.inRangeBefore last := by
      rwa [inRangeBefore, Nat.count_zero, Nat.zero_add]
    exact exists_drawKeys hstart

/-- Any number of draws from the start of a source return if it has as many blocks in range, and
then the keys are those of these blocks, in order and with none left out or taken twice. The
blocks drawn so far are counted with those that are passed over, and every key that is returned
has a public key. -/
theorem draws_are_blocks_in_range :
    (∀ limit count drawn, blocks.drawKeys limit count 0 = some drawn →
        drawn.length = count ∧ ∀ i (hbelow : i < drawn.length),
          ∃ block, blocks.IsDraw i drawn[i].1 drawn[i].2 block) ∧
      ∀ count, (∃ limit drawn, blocks.drawKeys limit count 0 = some drawn) ↔
        ∃ last, count ≤ blocks.inRangeBefore last := by
  refine ⟨?_, blocks.exists_drawKeys_iff⟩
  intro limit count drawn hreturned
  have hdraws := isDraw_of_drawKeys hreturned
  simpa only [inRangeBefore, Nat.count_zero, Nat.zero_add] using hdraws

/-- Zero and the order itself are passed over, and the next draw starts behind the block of the
first. -/
theorem draws_pass_over_zero_and_order :
    let blocks := scripted [.ofNat 32 0, .ofNat 32 2, .ofNat 32 Curve.order, .ofNat 32 1] []
    let drawn := [(⟨.ofNat 32 2, true⟩, 2), (⟨.ofNat 32 1, true⟩, 4)]
    blocks.drawKeys 2 2 0 = some drawn ∧ drawn.length = 2 ∧
      ∃ block, blocks.IsDraw 1 ⟨.ofNat 32 1, true⟩ 4 block := by
  intro blocks drawn
  have hreturned : blocks.drawKeys 2 2 0 = some drawn := by decide +kernel
  obtain ⟨hlength, hisDraws⟩ := (draws_are_blocks_in_range blocks).1 2 2 drawn hreturned
  exact ⟨hreturned, hlength, hisDraws 1 (by decide)⟩

end BitcoinKeys.BlockStream
