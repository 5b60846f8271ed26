import Mathlib.Algebra.BigOperators.Group.Finset.Basic
import Mathlib.Data.Fintype.Basic
import Mathlib.Logic.Function.Basic

namespace SysPrg
set_option autoImplicit true

/-- The thread that holds a lock, and no other, is at the places that the lock protects. -/
def HeldAt (inside : α → Bool) (pc : θ → α) (o : Option θ) : Prop :=
  ∀ t, inside (pc t) = true ↔ o = some t

namespace HeldAt

variable {inside : α → Bool} {pc : θ → α}

theorem alone (h : HeldAt inside pc o) (ht : inside (pc t) = true) (hu : inside (pc u) = true) :
    t = u :=
  Option.some.inj (((h t).1 ht).symm.trans ((h u).1 hu))

variable [DecidableEq θ]

theorem stay (h : HeldAt inside pc o) (hx : inside x = inside (pc t)) :
    HeldAt inside (Function.update pc t x) o := by
  refine (Function.forall_update_iff pc fun u y => inside y = true ↔ o = some u).2 ⟨?_, ?_⟩
  · rw [hx]
    exact h t
  · exact fun u _ => h u

theorem enter (h : HeldAt inside pc none) (hx : inside x = true) :
    HeldAt inside (Function.update pc t x) (some t) := by
  refine (Function.forall_update_iff pc fun u y => inside y = true ↔ some t = some u).2 ⟨?_, ?_⟩
  · exact ⟨fun _ => rfl, fun _ => hx⟩
  · exact fun u hu => ⟨fun hin => (Option.some_ne_none u ((h u).1 hin).symm).elim,
      fun he => (hu (Option.some.inj he).symm).elim⟩

theorem leave (h : HeldAt inside pc (some t)) (hx : inside x = false) :
    HeldAt inside (Function.update pc t x) none := by
  refine (Function.forall_update_iff pc fun u y => inside y = true ↔ none = some u).2 ⟨?_, ?_⟩
  · rw [hx]
    exact ⟨nofun, nofun⟩
  · exact fun u hu => ⟨fun hin => (hu (Option.some.inj ((h u).1 hin)).symm).elim, nofun⟩

end HeldAt

theorem sum_update [Fintype θ] [DecidableEq θ] (f : α → Nat) (pc : θ → α) (t : θ) (x : α) :
    (∑ u, f (Function.update pc t x u)) + f (pc t) = (∑ u, f (pc u)) + f x := by
  have hrest : ∑ u ∈ Finset.univ.erase t, f (Function.update pc t x u) =
      ∑ u ∈ Finset.univ.erase t, f (pc u) := by
    refine Finset.sum_congr rfl ?_
    intro u hu
    rw [Function.update_of_ne (Finset.ne_of_mem_erase hu)]
  rw [← Finset.add_sum_erase _ _ (Finset.mem_univ t), hrest, Function.update_self,
    ← Finset.add_sum_erase Finset.univ (fun u => f (pc u)) (Finset.mem_univ t)]
  omega

theorem perm_flatMap_set {f : α → List β} {xs : List α} (h : xs[t]? = some x) (y : α) :
    ((xs.set t y).flatMap f ++ f x).Perm (xs.flatMap f ++ f y) := by
  induction xs generalizing t with
  | nil => cases h
  | cons z xs ih =>
    cases t with
    | zero =>
      obtain rfl : z = x := Option.some.inj h
      rw [List.set_cons_zero, List.flatMap_cons, List.flatMap_cons, List.append_assoc]
      exact List.perm_append_comm.trans (List.Perm.append_right _ List.perm_append_comm)
    | succ t =>
      rw [List.set_cons_succ, List.flatMap_cons, List.flatMap_cons, List.append_assoc,
        List.append_assoc]
      exact (ih h).append_left _

end SysPrg
