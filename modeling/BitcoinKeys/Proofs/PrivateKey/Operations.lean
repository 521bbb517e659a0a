import BitcoinKeys.Proofs.KeyGuess.Recovery
import Mathlib.Logic.Function.Iterate

/-!
Sequences of changes to a key, in between which it is written in any of its forms and read back. No
reading fails or loses anything but the flag, which a decimal numeral does not tell.
-/
namespace BitcoinKeys.PrivateKey

inductive Operation where
  | compress
  | uncompress
  | rehash
  | throughHex
  | throughRaw
  | throughDecimal
  | throughWif (network : Network)
  /-- Wallet import format with a line feed behind it, read without naming the format. -/
  | throughGuess (network : Network)
deriving DecidableEq

namespace Operation

def apply (key : PrivateKey) : Operation → Except Error PrivateKey
  | compress => .ok key.compress
  | uncompress => .ok key.uncompress
  | rehash => .ok key.rehash
  | throughHex => ofHex key.toHex
  | throughRaw => ofRaw key.toRaw
  | throughDecimal => ofDecimal key.toDecimal
  | throughWif network => (Wif.decode (Wif.encode key network)).map Prod.fst
  | throughGuess network =>
    (KeyGuess.ofData (KeyGuess.textData (Wif.encode key network) true)).map KeyGuess.key

/-- Whether the text that is written cannot be a decimal numeral. -/
def isCertain (key : PrivateKey) : Operation → Bool
  | throughGuess network => network = .bitcoin || key.compressed
  | _ => true

/-- The flag of the key after an operation, if the key before it has no influence on it. -/
def flag? : Operation → Option Bool
  | compress | throughDecimal => some true
  | uncompress => some false
  | _ => none

def scalarAfter (scalar : FixedBytes 32) : Operation → FixedBytes 32
  | rehash => Hash.sha256 scalar.toBytes
  | _ => scalar

/-- The step lemma: scalar and flag after an operation that is certain. -/
theorem apply_of_isCertain {key : PrivateKey} {operation : Operation}
    (hcertain : operation.isCertain key = true) :
    operation.apply key =
      .ok ⟨operation.scalarAfter key.scalar, operation.flag?.getD key.compressed⟩ := by
  cases operation with
  | compress | uncompress | rehash => rfl
  | throughHex => exact ofHex_toHex key
  | throughRaw => exact ofRaw_toRaw key
  | throughDecimal => exact ofDecimal_toDecimal key
  | throughWif network =>
    rw [apply, Wif.decode_encode]
    rfl
  | throughGuess network =>
    have hletter : network = .bitcoin ∨ key.compressed = true := by
      rwa [isCertain, Bool.or_eq_true, decide_eq_true_iff] at hcertain
    have hguessed := (KeyGuess.ofData_wif_iff key network true).mpr
      (Wif.exists_letter_encode key network hletter)
    rw [apply, hguessed]
    rfl

end Operation

def run (key : PrivateKey) (operations : List Operation) : Except Error PrivateKey :=
  operations.foldlM Operation.apply key

def allCertain (key : PrivateKey) : List Operation → Bool
  | [] => true
  | operation :: rest => operation.isCertain key &&
    match operation.apply key with
    | .ok next => allCertain next rest
    | .error _ => true

theorem allCertain_cons {key : PrivateKey} {operation : Operation}
    (hcertain : operation.isCertain key = true) (rest : List Operation) :
    allCertain key (operation :: rest) =
      allCertain ⟨operation.scalarAfter key.scalar, operation.flag?.getD key.compressed⟩ rest := by
  rw [allCertain, hcertain, Operation.apply_of_isCertain hcertain, Bool.true_and]

def digests (count : Nat) (scalar : FixedBytes 32) : FixedBytes 32 :=
  (fun scalar => Hash.sha256 scalar.toBytes)^[count] scalar

def lastFlag? (operations : List Operation) : Option Bool :=
  (operations.filterMap Operation.flag?).getLast?

/-- Of the operations only a rehash changes the scalar. -/
theorem digests_count_cons (operation : Operation) (rest : List Operation)
    (scalar : FixedBytes 32) :
    digests ((operation :: rest).count .rehash) scalar =
      digests (rest.count .rehash) (operation.scalarAfter scalar) := by
  by_cases hrehash : operation = .rehash
  · rw [hrehash, List.count_cons_self, digests, Function.iterate_succ_apply]
    rfl
  · have hsame : operation.scalarAfter scalar = scalar := by
      cases operation with
      | rehash => exact absurd rfl hrehash
      | _ => rfl
    rw [List.count_cons_of_ne hrehash, hsame]

theorem lastFlag?_cons (operation : Operation) (rest : List Operation) (flag : Bool) :
    (lastFlag? (operation :: rest)).getD flag =
      (lastFlag? rest).getD (operation.flag?.getD flag) := by
  rw [lastFlag?, List.filterMap_cons]
  cases operation.flag? with
  | none => rfl
  | some set => exact congrArg (Option.getD · flag) List.getLast?_cons

/-- No operation fails. The scalar has gone through as many digests as there were, and the flag is
the one that was set last. -/
theorem run_eq_digests_and_last_flag (key : PrivateKey) (operations : List Operation)
    (hcertain : allCertain key operations = true) :
    run key operations =
      .ok ⟨digests (operations.count .rehash) key.scalar,
        (lastFlag? operations).getD key.compressed⟩ := by
  -- For every key at once: the first operation hands its key on to the rest.
  induction operations generalizing key with
  | nil => rfl
  | cons operation rest ih =>
    have hget : operation.isCertain key = true := (Bool.and_eq_true_iff.mp hcertain).1
    rw [allCertain_cons hget] at hcertain
    apply (bind_eq_ok_iff ..).mpr
    refine ⟨_, Operation.apply_of_isCertain hget, ?_⟩
    rw [digests_count_cons, lastFlag?_cons]
    exact ih _ hcertain

/-- Both guesses are certain, the second one because the numeral has set the flag. -/
theorem run_through_two_guesses :
    let key : PrivateKey := ⟨.ofNat 32 1, true⟩
    let operations : List Operation :=
      [.uncompress, .throughGuess .bitcoin, .rehash, .throughDecimal, .throughGuess .testnet]
    allCertain key operations = true ∧ run key operations = .ok ⟨digests 1 key.scalar, true⟩ := by
  intro key operations
  have hcertain : allCertain key operations = true := by
    iterate 5 rw [allCertain_cons rfl]
    rfl
  exact ⟨hcertain, run_eq_digests_and_last_flag key operations hcertain⟩

end BitcoinKeys.PrivateKey
