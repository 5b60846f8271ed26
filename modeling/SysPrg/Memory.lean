import Mathlib.Logic.Function.Basic
import SysPrg.Kernel

namespace SysPrg
set_option autoImplicit true

/-- Elements stored one after the other from an address on. Memory is a function of the address,
relative to where an object starts, so that an access beside the object has a meaning too. -/
def put (m : Int → α) (a : Int) : List α → Int → α
  | [] => m
  | x :: xs => put (Function.update m a x) (a + 1) xs

theorem put_of_lt (m : Int → α) {i a : Int} (xs : List α) (h : i < a) : put m a xs i = m i := by
  induction xs generalizing m a with
  | nil => rfl
  | cons x xs ih =>
    rw [put, ih _ (by omega)]
    exact Function.update_of_ne (by omega) _ _

theorem put_of_ge (m : Int → α) {i a : Int} (xs : List α) (h : a + xs.length ≤ i) :
    put m a xs i = m i := by
  induction xs generalizing m a with
  | nil => rfl
  | cons x xs ih =>
    rw [List.length_cons] at h
    rw [put, ih _ (by omega)]
    exact Function.update_of_ne (by omega) _ _

theorem put_get (m : Int → α) (a : Int) {k : Nat} {xs : List α} (h : xs[k]? = some x) :
    put m a xs (a + k) = x := by
  induction xs generalizing m a k with
  | nil => cases h
  | cons y xs ih =>
    cases k with
    | zero =>
      obtain rfl : y = x := Option.some.inj h
      rw [put, put_of_lt _ _ (by omega), Int.natCast_zero, Int.add_zero]
      exact Function.update_self _ _ _
    | succ k =>
      have hk := ih (Function.update m a y) (a + 1) h
      rw [put, ← hk]
      congr 1
      omega

theorem put_mem (m : Int → α) (a : Int) (xs : List α) (i : Int) :
    put m a xs i = m i ∨ put m a xs i ∈ xs := by
  induction xs generalizing m a with
  | nil => exact .inl rfl
  | cons x xs ih =>
    rcases ih (Function.update m a x) (a + 1) with h | h
    · by_cases hi : i = a
      · subst hi
        rw [Function.update_self] at h
        exact .inr (List.mem_cons.mpr (.inl h))
      · rw [Function.update_of_ne hi] at h
        exact .inl h
    · exact .inr (List.mem_cons_of_mem _ h)

theorem put_replicate (m : Int → α) {a i : Int} {n : Nat} (x : α) (ha : a ≤ i)
    (hi : i < a + n) : put m a (List.replicate n x) i = x := by
  have hk : (List.replicate n x)[(i - a).toNat]? = some x := by
    rw [List.getElem?_replicate, if_pos (by omega)]
  have hi' : i = a + (i - a).toNat := by omega
  rw [hi']
  exact put_get m a hk

theorem put_append (m : Int → α) (a : Int) (xs ys : List α) :
    put m a (xs ++ ys) = put (put m a xs) (a + xs.length) ys := by
  induction xs generalizing m a with
  | nil => rw [List.nil_append, put, List.length_nil, Int.natCast_zero, Int.add_zero]
  | cons x xs ih =>
    rw [List.cons_append, put, ih, put, List.length_cons]
    congr 1
    omega

theorem put_update (m : Int → α) {a i : Int} (xs : List α) (x : α)
    (h : i < a ∨ a + xs.length ≤ i) :
    Function.update (put m a xs) i x = put (Function.update m i x) a xs := by
  induction xs generalizing m a with
  | nil => rfl
  | cons y xs ih =>
    rw [List.length_cons] at h
    rw [put, put, ih _ (by omega), Function.update_comm (by omega)]

theorem put_singleton (m : Int → α) (a : Int) (x : α) : put m a [x] = Function.update m a x :=
  rfl

def Begins (m : Int → α) (xs : List α) : Prop := ∀ (k : Nat) x, xs[k]? = some x → m k = x

theorem put_begins (m : Int → α) (xs : List α) : Begins (put m 0 xs) xs := by
  intro k x hx
  rw [← put_get m 0 hx, Int.zero_add]

theorem length_writeAt (h : off + bs.length ≤ data.length) :
    (writeAt data off bs).length = data.length := by
  unfold writeAt
  split
  · rfl
  · simp only [List.length_append, List.length_take, List.length_replicate, List.length_drop]
    omega

theorem Begins.writeAt (h : Begins m data) {off : Nat} (hroom : off + bs.length ≤ data.length) :
    Begins (put m off bs) (SysPrg.writeAt data off bs) := by
  unfold SysPrg.writeAt
  split
  · next hnil =>
    rw [hnil]
    exact h
  · have hgap : off - data.length = 0 := by omega
    have htake : (data.take off).length = off := List.length_take_of_le (by omega)
    rw [hgap, List.replicate_zero, List.append_nil, List.append_assoc]
    intro k x hx
    by_cases hlt : k < off
    · rw [List.getElem?_append_left (by omega), List.getElem?_take_of_lt hlt] at hx
      rw [put_of_lt _ _ (by omega)]
      exact h k x hx
    · obtain ⟨j, rfl⟩ := Nat.exists_eq_add_of_le (Nat.not_lt.1 hlt)
      rw [List.getElem?_append_right (by omega), htake, Nat.add_sub_cancel_left] at hx
      by_cases hj : j < bs.length
      · rw [List.getElem?_append_left hj] at hx
        rw [Int.natCast_add]
        exact put_get m off hx
      · rw [List.getElem?_append_right (by omega), List.getElem?_drop] at hx
        rw [put_of_ge _ _ (by omega)]
        apply h
        rw [← hx]
        congr 1
        omega

/-- The string that starts at address zero: its bytes, and the terminator behind them. -/
structure StrHere (m : Int → UInt8) (bs : Bytes) : Prop where
  noNul : (0 : UInt8) ∉ bs
  bytes : ∀ (k : Nat) b, bs[k]? = some b → m k = b
  nul : m bs.length = 0

theorem put_strHere (m : Int → UInt8) (h : (0 : UInt8) ∉ bs) :
    StrHere (put m 0 (bs ++ [0])) bs where
  noNul := h
  bytes k b hb := by
    have hk : (bs ++ [0])[k]? = some b := by
      rw [List.getElem?_append_left (List.getElem?_eq_some_iff.mp hb).1]
      exact hb
    exact put_begins m (bs ++ [0]) k b hk
  nul := put_begins m (bs ++ [0]) bs.length 0 List.getElem?_concat_length

theorem StrHere.length_le (h : StrHere m bs) (h' : StrHere m cs) : bs.length ≤ cs.length := by
  by_contra hlt
  obtain ⟨b, hb⟩ : ∃ b, bs[cs.length]? = some b := ⟨_, List.getElem?_eq_getElem (by omega)⟩
  have h0 : b = 0 := (h.bytes _ _ hb).symm.trans h'.nul
  exact h.noNul (h0 ▸ List.mem_of_getElem? hb)

theorem StrHere.unique (h : StrHere m bs) (h' : StrHere m cs) : bs = cs := by
  have hlen : bs.length = cs.length := Nat.le_antisymm (h.length_le h') (h'.length_le h)
  apply List.ext_getElem hlen
  intro k hk hk'
  have hb := h.bytes k _ (List.getElem?_eq_getElem hk)
  have hc := h'.bytes k _ (List.getElem?_eq_getElem hk')
  exact hb.symm.trans hc

/-- `strlen` from an address on, in memory that is mapped for `n` bytes more. -/
def strlen (m : Int → UInt8) (a : Int) : Nat → Option Nat
  | 0 => none
  | n + 1 => if m a = 0 then some 0 else (strlen m (a + 1) n).map (· + 1)

theorem strlen_eq {m : Int → UInt8} {a : Int} {k : Nat} (hbytes : ∀ i < k, m (a + i) ≠ 0)
    (hnul : m (a + k) = 0) (hn : k < n) : strlen m a n = some k := by
  induction k generalizing a n with
  | zero =>
    obtain ⟨n, rfl⟩ := Nat.exists_eq_succ_of_ne_zero (Nat.ne_of_gt hn)
    rw [Int.natCast_zero, Int.add_zero] at hnul
    rw [strlen, if_pos hnul]
  | succ k ih =>
    obtain ⟨n, rfl⟩ := Nat.exists_eq_succ_of_ne_zero (Nat.ne_of_gt (Nat.zero_lt_of_lt hn))
    have hfirst := hbytes 0 (Nat.succ_pos k)
    have hnext (i : Nat) : a + (i + 1 : Nat) = a + 1 + i := by omega
    rw [Int.natCast_zero, Int.add_zero] at hfirst
    rw [hnext] at hnul
    have hrest : strlen m (a + 1) n = some k := by
      refine ih ?_ hnul (Nat.lt_of_succ_lt_succ hn)
      intro i hi
      rw [← hnext]
      exact hbytes (i + 1) (Nat.succ_lt_succ hi)
    rw [strlen, if_neg hfirst, hrest]
    rfl

end SysPrg
