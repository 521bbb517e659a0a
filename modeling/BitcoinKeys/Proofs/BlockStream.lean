import BitcoinKeys.BlockStream
import Mathlib.Logic.Function.Iterate
import Mathlib.Data.List.Infix

namespace BitcoinKeys.BlockStream

variable (blocks : BlockStream)

abbrev HasScalar (position : Nat) : Prop := Curve.isScalar (blocks position).toNat = true

def scalars (start count : Nat) : List (FixedBytes 32) :=
  ((List.range' start count).map blocks).filter (Curve.isScalar ·.toNat)

theorem scalars_succ (start count : Nat) :
    blocks.scalars start (count + 1) = blocks.scalars start count ++
      if blocks.HasScalar (start + count) then [blocks (start + count)] else [] := by
  rw [scalars, List.range'_1_concat, List.map_append, List.filter_append]
  by_cases hscalar : blocks.HasScalar (start + count)
  · simp [scalars, hscalar]
  · simp [scalars, hscalar]

/-- Stretches of blocks in a row have their scalars in a row. -/
theorem scalars_add (start count more : Nat) :
    blocks.scalars start (count + more) =
      blocks.scalars start count ++ blocks.scalars (start + count) more := by
  rw [scalars, ← List.range'_append_1, List.map_append, List.filter_append]
  rfl

/-- Every scalar among the blocks stands at some position. -/
theorem mem_scalars_iff (start count : Nat) (scalar : FixedBytes 32) :
    scalar ∈ blocks.scalars start count ↔
      ∃ i < count, blocks.HasScalar (start + i) ∧ blocks (start + i) = scalar := by
  simp only [scalars, List.mem_filter, List.mem_map, List.mem_range'_1]
  constructor
  · intro ⟨⟨position, ⟨habove, hbelow⟩, hsame⟩, hvalid⟩
    refine ⟨position - start, by omega, ?_⟩
    rw [HasScalar, Nat.add_sub_cancel' habove, hsame]
    exact ⟨hvalid, rfl⟩
  · intro ⟨i, hbelow, hvalid, hsame⟩
    exact ⟨⟨start + i, ⟨by omega, by omega⟩, hsame⟩, hsame ▸ hvalid⟩

theorem scalars_of_skipped {start count : Nat}
    (hinvalid : ∀ i < count, ¬blocks.HasScalar (start + i)) : blocks.scalars start count = [] := by
  apply List.eq_nil_iff_forall_not_mem.mpr
  intro scalar hmem
  obtain ⟨i, hbelow, hvalid, _⟩ := (blocks.mem_scalars_iff ..).mp hmem
  exact hinvalid i hbelow hvalid

/-- A draw passes over blocks that are no scalars, fewer than the limit, and takes the next one. -/
theorem drawKey_eq_some_iff {σ : Type} (drawn : σ → σ) (limit position : Nat) (surroundings : σ)
    (draw : Draw σ) :
    blocks.drawKey drawn limit position surroundings = some draw ↔
      ∃ skipped < limit, (∀ i < skipped, ¬blocks.HasScalar (position + i)) ∧
        blocks.HasScalar (position + skipped) ∧
        draw = ⟨⟨blocks (position + skipped), true⟩, position + skipped + 1,
          drawn (drawn^[skipped] surroundings)⟩ := by
  induction limit generalizing position surroundings with
  | zero => exact iff_of_false nofun nofun
  | succ limit ih =>
    rw [drawKey]
    by_cases hscalar : blocks.HasScalar position
    · rw [if_pos hscalar, Option.some.injEq]
      constructor
      · intro hsame
        exact ⟨0, Nat.succ_pos limit, nofun, hscalar, hsame.symm⟩
      · intro ⟨skipped, _, hinvalid, _, hsame⟩
        cases skipped with
        | zero => exact hsame.symm
        | succ skipped => exact absurd hscalar (hinvalid 0 (Nat.succ_pos skipped))
    · rw [if_neg hscalar, ih]
      -- What is passed over from the next block on, is passed over here with one block in front.
      have hshift (n : Nat) : position + 1 + n = position + (n + 1) := by omega
      simp only [hshift]
      constructor
      · intro ⟨skipped, hbelow, hinvalid, hvalid, hsame⟩
        refine ⟨skipped + 1, Nat.succ_lt_succ hbelow, ?_, hvalid, hsame⟩
        intro i _
        cases i with
        | zero => exact hscalar
        | succ i => exact hinvalid i (by omega)
      · intro ⟨skipped, hbelow, hinvalid, hvalid, hsame⟩
        cases skipped with
        | zero => exact absurd hvalid hscalar
        | succ skipped =>
          refine ⟨skipped, Nat.lt_of_succ_lt_succ hbelow, ?_, hvalid, hsame⟩
          intro i hlower
          exact hinvalid (i + 1) (Nat.succ_lt_succ hlower)

/-- A draw that ends within a limit ends in the same way within a larger one. -/
theorem drawKey_of_le {σ : Type} {drawn : σ → σ} {limit larger position : Nat} {surroundings : σ}
    {draw : Draw σ} (hle : limit ≤ larger)
    (h : blocks.drawKey drawn limit position surroundings = some draw) :
    blocks.drawKey drawn larger position surroundings = some draw := by
  obtain ⟨skipped, hbelow, htaken⟩ := (drawKey_eq_some_iff ..).mp h
  exact (drawKey_eq_some_iff ..).mpr ⟨skipped, hbelow.trans_le hle, htaken⟩

end BitcoinKeys.BlockStream
