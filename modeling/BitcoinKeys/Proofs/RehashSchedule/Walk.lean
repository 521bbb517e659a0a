import BitcoinKeys.Proofs.PrivateKey.Operations
import BitcoinKeys.Proofs.RehashSchedule

/-!
The keys at the depths of a schedule. The walk goes on from the key that it has reached. As the depths
ascend, nothing of the chain is passed by, and every key is the one that a walk to it alone would reach.
-/
namespace BitcoinKeys

namespace PrivateKey

/-- Digests in two stretches are digests in one. -/
theorem rehashes_add (key : PrivateKey) (count more : Nat) :
    key.rehashes (count + more) = (key.rehashes count).rehashes more := by
  induction count generalizing key with
  | zero => rw [Nat.zero_add, rehashes]
  | succ count ih => rw [Nat.succ_add, rehashes, ih, rehashes]

theorem rehashes_eq_digests (key : PrivateKey) (count : Nat) :
    key.rehashes count = ⟨digests count key.scalar, key.compressed⟩ := by
  induction count generalizing key with
  | zero => rfl
  | succ count ih =>
    -- the first digest is part of the key that the other digests start from
    rw [rehashes, ih]
    rfl

end PrivateKey

namespace RehashSchedule

open PrivateKey (digests)

/-- The key that is reached depends on how far a depth is from the start, not on the depths in
between. -/
theorem walk_eq_map (key : PrivateKey) (depth : Nat) {depths : List Nat}
    (hascending : depths.Pairwise (· < ·)) :
    walk key depth depths = depths.map fun next => (next, key.rehashes (next - depth)) := by
  induction depths generalizing key depth with
  | nil => rfl
  | cons next rest ih =>
    obtain ⟨habove, hascending⟩ := List.pairwise_cons.mp hascending
    rw [walk, ih _ _ hascending, List.map_cons]
    congr 1
    apply List.map_congr_left
    intro later hmem
    -- a later depth is reached by way of this one, or this one is the start if it is passed already
    have hsplit : later - depth = next - depth + (later - max depth next) := by
      have := habove later hmem
      omega
    rw [hsplit, PrivateKey.rehashes_add]

/-- A schedule gives one key for each of its depths, in their order: the flag is that of the given
key, and its scalar has gone through the digests that are missing to the depth. If the given key
stands at a depth of the chain of another one, the keys behind it are those of that chain. -/
theorem walk_reaches_each_depth (schedule : RehashSchedule) (key : PrivateKey)
    (phrase : Option String) (already : Nat) :
    (schedule.resolve phrase).Nodup ∧
    schedule.apply key phrase already = (schedule.resolve phrase).map (fun depth =>
      (depth, ⟨digests (depth - already) key.scalar, key.compressed⟩)) ∧
    ∀ base : PrivateKey,
      schedule.apply ⟨digests already base.scalar, base.compressed⟩ phrase already =
        (schedule.resolve phrase).map (fun depth =>
          (depth, ⟨digests (max already depth) base.scalar, base.compressed⟩)) := by
  have hascending := schedule.pairwise_resolve phrase
  have hwalked (first : PrivateKey) : schedule.apply first phrase already = _ :=
    walk_eq_map first already hascending
  refine ⟨hascending.imp Nat.ne_of_lt, ?_, ?_⟩
  · simpa only [PrivateKey.rehashes_eq_digests] using hwalked key
  · intro base
    rw [hwalked]
    apply List.map_congr_left
    intro depth _
    -- all digests are counted from the other key, those before the start as well
    have htotal : max already depth = already + (depth - already) := by omega
    rw [← PrivateKey.rehashes_eq_digests base already, ← PrivateKey.rehashes_add, ← htotal,
      PrivateKey.rehashes_eq_digests]

end RehashSchedule
end BitcoinKeys
