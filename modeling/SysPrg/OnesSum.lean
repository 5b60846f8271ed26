import Mathlib.Algebra.BigOperators.Group.List.Basic
import Mathlib.Data.Nat.ModEq

namespace SysPrg
set_option autoImplicit true

/-- Addition with end-around carry, of numbers up to `m`. -/
def endAround (m a b : Nat) : Nat := if a + b ≤ m then a + b else a + b - m

def onesSum (m : Nat) (ws : List Nat) : Nat := ws.foldl (endAround m) 0

/-- What a sum is in one's complement: its residue, with `m` for the multiples that are not zero. -/
def residue (m s : Nat) : Nat := if s = 0 then 0 else (s - 1) % m + 1

theorem residue_le (hm : 0 < m) (s : Nat) : residue m s ≤ m := by
  unfold residue
  split
  · exact Nat.zero_le m
  · exact Nat.mod_lt _ hm

theorem residue_unique (hr : r ≤ m) (hs : s = k * m + r) (h0 : r = 0 → s = 0) :
    residue m s = r := by
  unfold residue
  split
  · omega
  · next hne =>
    have hpos : 0 < r := Nat.pos_of_ne_zero fun h => hne (h0 h)
    have hpred : s - 1 = m * k + (r - 1) := by
      rw [Nat.mul_comm m k]
      omega
    rw [hpred, Nat.mul_add_mod, Nat.mod_eq_of_lt (by omega)]
    omega

theorem residue_spec (m s : Nat) :
    ∃ k, s = k * m + residue m s ∧ (residue m s = 0 → s = 0) := by
  unfold residue
  split
  · next h => exact ⟨0, by omega, fun _ => h⟩
  · refine ⟨(s - 1) / m, ?_, fun h => (by cases h)⟩
    have hdiv := Nat.div_add_mod (s - 1) m
    rw [Nat.mul_comm] at hdiv
    omega

theorem endAround_residue (hm : 0 < m) (hw : w ≤ m) :
    endAround m (residue m s) w = residue m (s + w) := by
  obtain ⟨k, hs, h0⟩ := residue_spec m s
  have hle := residue_le hm s
  unfold endAround
  symm
  split
  · exact residue_unique (k := k) (by omega) (by omega) (by omega)
  · have hk : (k + 1) * m = k * m + m := Nat.succ_mul k m
    exact residue_unique (k := k + 1) (by omega) (by omega) (by omega)

theorem onesSum_eq (hm : 0 < m) (h : ∀ w ∈ ws, w ≤ m) : onesSum m ws = residue m ws.sum := by
  have hfold : ∀ s, ws.foldl (endAround m) (residue m s) = residue m (s + ws.sum) := by
    induction ws with
    | nil => exact fun s => rfl
    | cons w ws ih =>
      obtain ⟨hw, hws⟩ := List.forall_mem_cons.mp h
      intro s
      rw [List.foldl_cons, endAround_residue hm hw, ih hws, List.sum_cons, Nat.add_assoc]
  have hzero := hfold 0
  rw [Nat.zero_add] at hzero
  exact hzero

/-- Adding the carries of a wide sum back in twice leaves the one's complement sum, as long as the
carries are a word. -/
theorem residue_fold (h : s < (m + 1) * (m + 1)) :
    (s / (m + 1) + s % (m + 1) + (s / (m + 1) + s % (m + 1)) / (m + 1)) % (m + 1) =
      residue m s := by
  have hq : s / (m + 1) < m + 1 := Nat.div_lt_of_lt_mul h
  have ht : s % (m + 1) < m + 1 := Nat.mod_lt _ (Nat.succ_pos m)
  have hs : s = s / (m + 1) * m + (s / (m + 1) + s % (m + 1)) := by
    have hdiv := Nat.div_add_mod s (m + 1)
    rw [Nat.succ_mul, Nat.mul_comm] at hdiv
    omega
  generalize s / (m + 1) = q at hq hs ⊢
  generalize s % (m + 1) = t at ht hs ⊢
  symm
  by_cases hle : q + t ≤ m
  · rw [Nat.div_eq_of_lt (by omega), Nat.add_zero, Nat.mod_eq_of_lt (by omega)]
    exact residue_unique hle hs fun h0 => by
      obtain rfl : q = 0 := by omega
      omega
  · have hcarry : (q + t) / (m + 1) = 1 := Nat.div_eq_of_lt_le (by omega) (by omega)
    have hlow : (q + t + 1) % (m + 1) = q + t - m := by
      rw [Nat.mod_eq_sub_mod (by omega), Nat.mod_eq_of_lt (by omega)]
      omega
    have hk : (q + 1) * m = q * m + m := Nat.succ_mul q m
    rw [hcarry, hlow]
    exact residue_unique (k := q + 1) (by omega) (by omega) (by omega)

theorem residue_complement (hm : 0 < m) (s : Nat) : residue m (s + (m - residue m s)) = m := by
  obtain ⟨k, hs, h0⟩ := residue_spec m s
  have hle := residue_le hm s
  exact residue_unique (k := k) (Nat.le_refl m) (by omega) (by omega)

theorem residue_eq_iff (hm : 0 < m) (hs : s ≠ 0) : residue m s = m ↔ m ∣ s := by
  constructor
  · intro h
    obtain ⟨k, hk, -⟩ := residue_spec m s
    rw [h] at hk
    exact ⟨k + 1, by rw [hk, Nat.mul_succ, Nat.mul_comm]⟩
  · rintro ⟨k, rfl⟩
    cases k with
    | zero => exact (hs (Nat.mul_zero m)).elim
    | succ k =>
      exact residue_unique (k := k) (Nat.le_refl m) (by rw [Nat.mul_succ, Nat.mul_comm])
        (by omega)

end SysPrg
