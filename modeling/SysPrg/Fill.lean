import Mathlib.Algebra.Order.Group.Nat

namespace SysPrg
set_option autoImplicit true

/-- A memory after `len` of its cells, from `off` on, have been set to `x`. -/
def fill (off len : Nat) (x : α) (m : Nat → α) : Nat → α :=
  fun a => if off ≤ a ∧ a < off + len then x else m a

theorem fill_zero (off : Nat) (x : α) (m : Nat → α) : fill off 0 x m = m := by
  funext a
  exact if_neg (fun h => Nat.not_lt.2 h.1 h.2)

theorem fill_fill (off len len' : Nat) (x : α) (m : Nat → α) :
    fill (off + len) len' x (fill off len x m) = fill off (len + len') x m := by
  funext a
  unfold fill
  by_cases h : off + len ≤ a ∧ a < off + len + len'
  · rw [if_pos h, if_pos (by omega)]
  · rw [if_neg h]
    by_cases h' : off ≤ a ∧ a < off + len
    · rw [if_pos h', if_pos (by omega)]
    · rw [if_neg h', if_neg (by omega)]

/-- A call of `memset`, but for the byte: the address and the number of bytes. -/
structure Memset where
  s : UInt64
  n : UInt64
  deriving DecidableEq, Repr

/-- Whether the call sets the byte at an address. Addresses go round at the end of memory. -/
def Memset.covers (c : Memset) (a : UInt64) : Bool := a - c.s < c.n

def Memset.call (x : α) (m : UInt64 → α) (c : Memset) : UInt64 → α :=
  fun a => if c.covers a then x else m a

theorem foldl_memset (x : α) (m : UInt64 → α) (calls : List Memset) (a : UInt64) :
    calls.foldl (Memset.call x) m a = if calls.countP (·.covers a) = 0 then m a else x := by
  induction calls generalizing m with
  | nil => rfl
  | cons c calls ih =>
    rw [List.foldl_cons, ih, List.countP_cons, Memset.call]
    by_cases hc : c.covers a = true
    · rw [if_pos hc, if_pos hc, if_neg (Nat.succ_ne_zero _), ite_self]
    · rw [if_neg hc, if_neg hc, Nat.add_zero]

theorem Memset.covers_iff {c : Memset} (h : c.s.toNat + c.n.toNat ≤ 2 ^ 64) (a : UInt64) :
    c.covers a = true ↔ c.s.toNat ≤ a.toNat ∧ a.toNat < c.s.toNat + c.n.toNat := by
  have ha := a.toNat_lt
  have hs := c.s.toNat_lt
  rw [Memset.covers, decide_eq_true_iff, UInt64.lt_iff_toNat_lt, UInt64.toNat_sub]
  omega

end SysPrg
