import Mathlib.Data.Nat.Digits.Lemmas
import SysPrg.Kernel

namespace SysPrg
set_option autoImplicit true

/-- A store into a block of memory, which must not go beyond it. -/
def store (blk : Bytes) (off : Nat) (bs : Bytes) : Option Bytes :=
  if off + bs.length ≤ blk.length then some (writeAt blk off bs) else none

/-- The string at an offset of a block, which must have its terminator in it. -/
def strAt (blk : Bytes) (off : Nat) : Option Bytes :=
  if 0 ∈ blk.drop off then some (cStr (blk.drop off)) else none

theorem zero_notMem_cStr (bs : Bytes) : (0 : UInt8) ∉ cStr bs := by
  intro h
  have h0 := List.mem_takeWhile_imp (p := fun b : UInt8 => decide (b ≠ 0)) h
  exact of_decide_eq_true h0 rfl

theorem cStr_append (h : (0 : UInt8) ∉ bs) (rest : Bytes) : cStr (bs ++ 0 :: rest) = bs := by
  have hbs : cStr bs = bs := cStr_eq_self h
  unfold cStr at hbs ⊢
  rw [List.takeWhile_append, hbs, if_pos rfl]
  exact List.append_nil bs

theorem cStr_split (h : (0 : UInt8) ∈ bs) : ∃ tail, bs = cStr bs ++ 0 :: tail := by
  obtain ⟨s, tail, rfl, hs⟩ := List.eq_append_cons_of_mem h
  rw [cStr_append hs]
  exact ⟨tail, rfl⟩

theorem store_over (pre tail : Bytes) (h : bs.length ≤ tail.length) :
    store (pre ++ tail) pre.length bs = some (pre ++ (bs ++ tail.drop bs.length)) := by
  have hlen : pre.length + bs.length ≤ (pre ++ tail).length := by
    rw [List.length_append]
    exact Nat.add_le_add_left h _
  have hcover := writeAt_cover pre (pre ++ tail) bs
  rw [List.drop_left] at hcover
  rw [store, if_pos hlen, hcover, ← List.drop_drop, List.drop_left, List.append_assoc]

theorem strAt_append (pre : Bytes) (h : (0 : UInt8) ∉ bs) (rest : Bytes) :
    strAt (pre ++ (bs ++ 0 :: rest)) pre.length = some bs := by
  rw [strAt, List.drop_left, cStr_append h,
    if_pos (List.mem_append_right _ List.mem_cons_self)]

theorem strAt_split (h : strAt blk off = some s) :
    (0 : UInt8) ∉ s ∧ ∃ tail, blk.drop off = s ++ 0 :: tail := by
  unfold strAt at h
  split at h
  · next h0 =>
    obtain ⟨tail, hsplit⟩ := cStr_split h0
    cases h
    exact ⟨zero_notMem_cStr _, tail, hsplit⟩
  · cases h

theorem store_cases (h : store blk off bs = some blk') :
    off + bs.length ≤ blk.length ∧ blk' = writeAt blk off bs := by
  unfold store at h
  split at h
  · next hroom => exact ⟨hroom, (Option.some.inj h).symm⟩
  · cases h

def pack (strs : List Bytes) : Bytes := (strs.map (· ++ [0])).flatten

theorem pack_cons (s : Bytes) (strs : List Bytes) : pack (s :: strs) = s ++ 0 :: pack strs := by
  unfold pack
  rw [List.map_cons, List.flatten_cons, List.append_assoc]
  rfl

theorem strAt_append_iff (h : (0 : UInt8) ∉ bs) (tail : Bytes) :
    strAt (bs ++ tail) 0 = some bs ↔ tail[0]? = some 0 := by
  cases tail with
  | nil =>
    rw [strAt, List.append_nil, List.drop_zero, if_neg h]
    exact ⟨fun hx => (by cases hx), fun hx => (by cases hx)⟩
  | cons b tail =>
    by_cases hb : b = 0
    · subst hb
      exact ⟨fun _ => rfl, fun _ => strAt_append [] h tail⟩
    · constructor
      · intro hs
        unfold strAt at hs
        split at hs
        · have hlen := congrArg List.length (Option.some.inj hs)
          have hall : ∀ x ∈ bs, decide (x ≠ 0) = true := by
            intro x hx
            exact decide_eq_true (fun h0 => h (h0 ▸ hx))
          have hcons : (b :: tail).takeWhile (fun x => decide (x ≠ 0)) =
              b :: tail.takeWhile (fun x => decide (x ≠ 0)) :=
            List.takeWhile_cons_of_pos (p := fun x => decide (x ≠ 0)) (decide_eq_true hb)
          rw [List.drop_zero, cStr, List.takeWhile_append_of_pos hall, hcons,
            List.length_append, List.length_cons] at hlen
          omega
        · cases hs
      · intro hx
        exact (hb (Option.some.inj hx)).elim

/-- A string: its bytes, none of which is the terminator. -/
structure CString where
  bytes : Bytes
  noNul : (0 : UInt8) ∉ bytes
  deriving DecidableEq

namespace CString

def append (s t : CString) : CString :=
  ⟨s.bytes ++ t.bytes, fun h => (List.mem_append.1 h).elim s.noNul t.noNul⟩

instance : Append CString := ⟨append⟩

def ofBuffer (buf : Bytes) : CString :=
  ⟨cStr buf, zero_notMem_cStr buf⟩

theorem ofBuffer_bytes (s : CString) : ofBuffer s.bytes = s := by
  obtain ⟨bs, h⟩ := s
  simp only [ofBuffer, cStr_eq_self h]

def lit (s : String) (h : (0 : UInt8) ∉ s.toList.map (fun c => UInt8.ofNat c.toNat)) : CString :=
  ⟨s.toList.map (fun c => UInt8.ofNat c.toNat), h⟩

/-- What `snprintf` leaves of a string in a buffer of `size` bytes. -/
def snprintf (size : Nat) (s : CString) : CString :=
  ⟨s.bytes.take (size - 1), fun h => s.noNul (List.mem_of_mem_take h)⟩

theorem digit_ne_zero (hd : d < 10) : UInt8.ofNat (48 + d) ≠ 0 := by
  intro h
  have hn := congrArg UInt8.toNat h
  rw [UInt8.toNat_ofNat_of_lt' (by simp only [UInt8.size]; omega), UInt8.toNat_zero] at hn
  omega

def digits (n : Nat) : CString where
  bytes := if n = 0 then [48] else (Nat.digits 10 n).reverse.map (fun d => UInt8.ofNat (48 + d))
  noNul := by
    split
    · decide
    · intro h
      obtain ⟨d, hd, h0⟩ := List.mem_map.1 h
      exact digit_ne_zero (Nat.digits_lt_base (by decide) (List.mem_reverse.1 hd)) h0

def decimal (z : Int) : CString :=
  if z < 0 then lit "-" (by decide) ++ digits z.natAbs else digits z.natAbs

end CString

end SysPrg
