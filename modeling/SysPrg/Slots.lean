import Mathlib.Data.Fintype.Card
import Mathlib.Algebra.Order.Group.Nat
import Mathlib.Algebra.Order.Group.Int

namespace SysPrg
set_option autoImplicit true

/-- The whereabouts of a number of slots: free, taken by a process, in a queue, or being worked
on. -/
structure Slots (π : Type) where
  free : Nat
  held : Finset π
  queued : Nat
  busy : Nat

namespace Slots

def total (c : Slots π) : Nat := c.free + c.held.card + c.queued + c.busy

variable [DecidableEq π]

/-- What can happen to the slots, and how many of them there are more after it. -/
inductive Move : Slots π → Int → Slots π → Prop where
  | stay (c : Slots π) : Move c 0 c
  | take (hp : p ∉ h) : Move ⟨f + 1, h, q, b⟩ 0 ⟨f, insert p h, q, b⟩
  | hand (hp : p ∈ h) : Move ⟨f, h, q, b⟩ 0 ⟨f, h.erase p, q + 1, b⟩
  | start (f : Nat) (h : Finset π) : Move ⟨f, h, q + 1, b⟩ 0 ⟨f, h, q, b + 1⟩
  | finish (f : Nat) (h : Finset π) : Move ⟨f, h, q, b + 1⟩ 0 ⟨f + 1, h, q, b⟩
  | lose (hp : p ∈ h) : Move ⟨f, h, q, b⟩ (-1) ⟨f, h.erase p, q, b⟩
  | forge (f : Nat) (h : Finset π) : Move ⟨f, h, q, b⟩ 1 ⟨f, h, q + 1, b⟩

theorem Move.total {c c' : Slots π} (h : Move c d c') : (c'.total : Int) = c.total + d := by
  cases h with
  | stay => exact (Int.add_zero _).symm
  | take hp =>
    simp only [Slots.total, Finset.card_insert_of_notMem hp]
    omega
  | hand hp | lose hp =>
    have hcard := Finset.card_erase_add_one hp
    simp only [Slots.total]
    omega
  | start | finish | forge =>
    simp only [Slots.total]
    omega

end Slots

theorem filter_update [Fintype π] [DecidableEq π] (P : α → Bool) (f : π → α) (p : π) (x : α) :
    Finset.univ.filter (fun q => P (Function.update f p x q) = true) =
      if P x = true then insert p (Finset.univ.filter (fun q => P (f q) = true))
      else (Finset.univ.filter (fun q => P (f q) = true)).erase p := by
  ext q
  by_cases hq : q = p
  · subst hq
    split
    · next h => simp [h]
    · next h => simp [h]
  · split
    · simp [hq]
    · simp [hq]

end SysPrg
