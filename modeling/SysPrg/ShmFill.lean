import SysPrg.ShmMutex

namespace SysPrg.ShmMutex
set_option autoImplicit true

/-- The `memset` calls of `update_udata`, in the arithmetic of `size_t`, `off_t` and addresses. -/
def udataCalls (pUdata : UInt64) (offset : Int64) (len : UInt64) : List Memset :=
  let chunkSz : UInt64 := 4096
  let numIters := len / chunkSz
  let remainder := len % chunkSz
  (List.range numIters.toNat).map
      (fun i => ⟨pUdata + offset.toUInt64 + UInt64.ofNat i * chunkSz, chunkSz⟩) ++
    if remainder ≠ 0 then [⟨pUdata + offset.toUInt64 + numIters * chunkSz, remainder⟩] else []

def updateUdataAt (m : UInt64 → UInt8) (pUdata : UInt64) (letter : UInt8) (offset : Int64)
    (len : UInt64) : UInt64 → UInt8 :=
  (udataCalls pUdata offset len).foldl (Memset.call letter) m

/-- A range of a region that begins at `base` and has `size` bytes. -/
structure Inside (base : UInt64) (size : Nat) (offset : Int64) (len : UInt64) : Prop where
  mapped : base.toNat + size ≤ 2 ^ 64
  start : 0 ≤ offset
  stop : offset.toInt + len.toNat ≤ size

theorem Inside.toNat_offset (h : Inside base size offset len) :
    (offset.toUInt64.toNat : Int) = offset.toInt := by
  have hpos : 0 ≤ offset.toInt := Int64.le_iff_toInt_le.1 h.start
  rw [Int64.toNat_toUInt64_of_le h.start]
  exact Int.toNat_of_nonneg hpos

theorem Inside.toNat_chunk (h : Inside base size offset len) {i : UInt64}
    (hi : i.toNat * 4096 < len.toNat) :
    ((base + offset.toUInt64 + i * 4096).toNat : Int) =
      base.toNat + offset.toInt + i.toNat * 4096 := by
  have hoff := h.toNat_offset
  have hmap := h.mapped
  have hstop := h.stop
  have h4096 : (4096 : UInt64).toNat = 4096 := rfl
  rw [UInt64.toNat_add, UInt64.toNat_add, UInt64.toNat_mul, h4096]
  omega

theorem Inside.covers_iff (h : Inside base size offset len) {i n : UInt64} (hn : n ≠ 0)
    (hi : i.toNat * 4096 + n.toNat ≤ len.toNat) (a : UInt64) :
    (Memset.mk (base + offset.toUInt64 + i * 4096) n).covers a = true ↔
      base.toNat + offset.toInt + i.toNat * 4096 ≤ a.toNat ∧
        a.toNat < base.toNat + offset.toInt + (i.toNat * 4096 + n.toNat) := by
  have hpos : n.toNat ≠ 0 := fun h0 => hn (UInt64.toNat_inj.1 h0)
  have hs := h.toNat_chunk (i := i) (by omega)
  have hmap := h.mapped
  have hstop := h.stop
  rw [Memset.covers_iff (by dsimp only; omega)]
  dsimp only
  omega

/-- The chunks of the loop follow on each other, from the start of the range on. -/
theorem Inside.count_chunks (h : Inside base size offset len) (k : Nat)
    (hk : k * 4096 ≤ len.toNat) (a : UInt64) :
    ((List.range k).map fun i =>
        Memset.mk (base + offset.toUInt64 + UInt64.ofNat i * 4096) 4096).countP (·.covers a) =
      if base.toNat + offset.toInt ≤ a.toNat ∧
        a.toNat < base.toNat + offset.toInt + (k * 4096 : Nat) then 1 else 0 := by
  induction k with
  | zero => exact (if_neg (by omega)).symm
  | succ k ih =>
    have hlen := len.toNat_lt
    have ih := ih (Nat.le_trans (Nat.mul_le_mul_right _ (Nat.le_succ k)) hk)
    have h4096 : (4096 : UInt64).toNat = 4096 := rfl
    have hkn : (UInt64.ofNat k).toNat = k :=
      UInt64.toNat_ofNat_of_lt' (by simp only [UInt64.size]; omega)
    have hcov := h.covers_iff (i := .ofNat k) (n := 4096) (by decide) (by omega) a
    rw [hkn, h4096] at hcov
    rw [List.range_succ, List.map_append, List.countP_append, ih, List.map_singleton,
      List.countP_singleton, if_congr hcov rfl rfl]
    split <;> split <;> split <;> omega

theorem Inside.count_calls (h : Inside base size offset len) (a : UInt64) :
    (udataCalls base offset len).countP (·.covers a) =
      if base.toNat + offset.toInt ≤ a.toNat ∧
        a.toNat < base.toNat + offset.toInt + len.toNat then 1 else 0 := by
  have hdiv : (len / 4096).toNat = len.toNat / 4096 := UInt64.toNat_div _ _
  have hmod : (len % 4096).toNat = len.toNat % 4096 := UInt64.toNat_mod _ _
  have hchunks := h.count_chunks (len / 4096).toNat (by omega) a
  rw [udataCalls, List.countP_append, hchunks]
  by_cases hrem : len % 4096 ≠ 0
  · have hcov := h.covers_iff (i := len / 4096) hrem (by omega) a
    rw [if_pos hrem, List.countP_singleton, if_congr hcov rfl rfl]
    split <;> split <;> split <;> omega
  · have h0 : (len % 4096).toNat = 0 := by
      rw [not_not.1 hrem]
      rfl
    rw [if_neg hrem, List.countP_nil, Nat.add_zero]
    split <;> split <;> omega

theorem Inside.updateUdataAt_eq (h : Inside base size offset len) (m : UInt64 → UInt8)
    (letter : UInt8) (a : UInt64) :
    updateUdataAt m base letter offset len a =
      if base.toNat + offset.toInt ≤ a.toNat ∧
        a.toNat < base.toNat + offset.toInt + len.toNat then letter else m a := by
  rw [updateUdataAt, foldl_memset, h.count_calls a]
  split <;> rfl

theorem Inside.region_eq (h : Inside base size offset len) (m : UInt64 → UInt8) (letter : UInt8)
    {a : Nat} (ha : a < size) :
    updateUdataAt m base letter offset len (base + .ofNat a) =
      updateUdata (fun i => m (base + .ofNat i)) letter offset.toInt.toNat len.toNat a := by
  have hpos : 0 ≤ offset.toInt := Int64.le_iff_toInt_le.1 h.start
  have hmap := h.mapped
  have hbase := base.toNat_lt
  have haddr : (base + .ofNat a).toNat = base.toNat + a := by
    rw [UInt64.toNat_add, UInt64.toNat_ofNat']
    omega
  rw [h.updateUdataAt_eq, updateUdata_eq, fill, haddr]
  apply if_congr ?_ rfl rfl
  omega

/-- `update_udata` is one fill of its range, with no byte set twice. -/
theorem updateUdataAt_one_fill (m : UInt64 → UInt8) (letter : UInt8)
    (h : Inside base size offset len) (a : UInt64) :
    (updateUdataAt m base letter offset len a =
      if base.toNat + offset.toInt ≤ a.toNat ∧
        a.toNat < base.toNat + offset.toInt + len.toNat then letter else m a) ∧
    (udataCalls base offset len).countP (·.covers a) =
      if base.toNat + offset.toInt ≤ a.toNat ∧
        a.toNat < base.toNat + offset.toInt + len.toNat then 1 else 0 :=
  ⟨h.updateUdataAt_eq m letter a, h.count_calls a⟩

theorem updateUdataAt_second_chunk :
    updateUdataAt (fun _ => 0) 65536 112 100 5000 69732 = 112 ∧
      (udataCalls 65536 100 5000).countP (·.covers 69732) = 1 := by
  have hinside : Inside 65536 8192 100 5000 := ⟨by decide, by decide, by decide⟩
  have hrange : (65536 : UInt64).toNat + (100 : Int64).toInt ≤ (69732 : UInt64).toNat ∧
      (69732 : UInt64).toNat <
        (65536 : UInt64).toNat + (100 : Int64).toInt + (5000 : UInt64).toNat := by decide
  have hfill := updateUdataAt_one_fill (fun _ => 0) 112 hinside 69732
  rw [if_pos hrange, if_pos hrange] at hfill
  exact hfill

end SysPrg.ShmMutex
