import BitcoinKeys.Bytes.Fixed
import BitcoinKeys.Proofs.Radix

namespace BitcoinKeys.Bytes

theorem map_ofNat_map_toNat (bytes : Bytes) : (bytes.map UInt8.toNat).map UInt8.ofNat = bytes := by
  rw [List.map_map]
  exact List.map_id'' (fun byte => UInt8.ofNat_toNat) bytes

theorem map_toNat_map_ofNat (ds : List Nat) (h : ∀ d ∈ ds, d < 256) :
    (ds.map UInt8.ofNat).map UInt8.toNat = ds := by
  rw [List.map_map]
  refine (List.map_congr_left fun d hd => ?_).trans (List.map_id ds)
  exact UInt8.toNat_ofNat_of_lt' (h d hd)

theorem map_toNat_lt (bytes : Bytes) : ∀ d ∈ bytes.map UInt8.toNat, d < 256 := by
  intro d hd
  obtain ⟨byte, _, rfl⟩ := List.mem_map.mp hd
  exact byte.toNat_lt

theorem toNat_lt (bytes : Bytes) : bytes.toNat < 256 ^ bytes.length := by
  have h := Radix.value_lt 256 (by decide) _ (map_toNat_lt bytes)
  rwa [List.length_map] at h

/-- Of a number that is too large the low bytes are left. -/
theorem toNat_ofNat (width n : Nat) : (ofNat width n).toNat = n % 256 ^ width := by
  rw [toNat, ofNat, map_toNat_map_ofNat _ (Radix.fixed_lt _ _ _ (by decide)), Radix.value_fixed]

theorem ofNat_toNat (bytes : Bytes) : ofNat bytes.length bytes.toNat = bytes := by
  have h := Radix.fixed_value 256 (by decide) _ (map_toNat_lt bytes)
  rw [List.length_map] at h
  rw [ofNat, toNat, h, map_ofNat_map_toNat]

theorem ofNat_succ (width n : Nat) :
    ofNat (width + 1) n = ofNat width (n / 256) ++ [UInt8.ofNat (n % 256)] := by
  rw [ofNat, Radix.fixed_succ, List.map_append]
  rfl

theorem toNat_cons (byte : UInt8) (bytes : Bytes) :
    toNat (byte :: bytes) = byte.toNat * 256 ^ bytes.length + bytes.toNat := by
  rw [toNat, List.map_cons, Radix.value_cons, List.length_map, toNat]

/-- The first byte tells the number up to one of its place. -/
theorem toNat_cons_bounds (byte : UInt8) (bytes : Bytes) :
    byte.toNat * 256 ^ bytes.length ≤ toNat (byte :: bytes) ∧
      toNat (byte :: bytes) < (byte.toNat + 1) * 256 ^ bytes.length := by
  have hbounds := Radix.value_cons_bounds 256 (by decide) byte.toNat _ (map_toNat_lt bytes)
  rwa [List.length_map, ← List.map_cons] at hbounds

end BitcoinKeys.Bytes

namespace BitcoinKeys.FixedBytes

theorem ext_toBytes {width : Nat} {x y : FixedBytes width} (h : x.toBytes = y.toBytes) : x = y := by
  cases x
  cases y
  simpa using h

theorem ofNat_toNat {width : Nat} (bytes : FixedBytes width) : ofNat width bytes.toNat = bytes := by
  apply ext_toBytes
  have h := Bytes.ofNat_toNat bytes.toBytes
  rwa [bytes.length_eq] at h

theorem toNat_lt {width : Nat} (bytes : FixedBytes width) : bytes.toNat < 256 ^ width := by
  have h := Bytes.toNat_lt bytes.toBytes
  rwa [bytes.length_eq] at h

theorem toNat_ofNat {width n : Nat} (h : n < 256 ^ width) : (ofNat width n).toNat = n :=
  (Bytes.toNat_ofNat width n).trans (Nat.mod_eq_of_lt h)

theorem ofBytes_of_length {width : Nat} (bytes : Bytes) (h : bytes.length = width) :
    ofBytes width bytes = .ok ⟨bytes, h⟩ := dif_pos h

end BitcoinKeys.FixedBytes
