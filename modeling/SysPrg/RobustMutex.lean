import Mathlib.Logic.Basic

namespace SysPrg
set_option autoImplicit true

/-- A robust mutex of the error-checking type. It is `inconsistent` while it is held by a thread
that was told that the owner before it had died. -/
inductive Mutex (τ : Type) where
  | free
  | held (owner : τ)
  | ownerDead
  | inconsistent (owner : τ)
  | notRecoverable
  deriving DecidableEq, Repr

inductive LockRet where
  | ok
  | edeadlk
  | eownerdead
  | enotrecoverable
  deriving DecidableEq, Repr

inductive Hold where
  | none
  | clean
  | dirty
  deriving DecidableEq, Repr

namespace Mutex
variable {τ : Type} [DecidableEq τ] {m m' : Mutex τ} {t : τ}

/-- `pthread_mutex_lock`, which does not return while another thread holds the mutex. -/
def lock (m : Mutex τ) (t : τ) : Option (LockRet × Mutex τ) :=
  match m with
  | .free => some (.ok, .held t)
  | .held u => if u = t then some (.edeadlk, m) else none
  | .ownerDead => some (.eownerdead, .inconsistent t)
  | .inconsistent u => if u = t then some (.edeadlk, m) else none
  | .notRecoverable => some (.enotrecoverable, m)

/-- `pthread_mutex_unlock`, which fails and does nothing when it is not the owner who calls. -/
def unlock (m : Mutex τ) (t : τ) : Mutex τ :=
  match m with
  | .held u => if u = t then .free else m
  | .inconsistent u => if u = t then .notRecoverable else m
  | _ => m

/-- `pthread_mutex_consistent`, if it succeeds. -/
def consistent (m : Mutex τ) (t : τ) : Option (Mutex τ) :=
  match m with
  | .inconsistent u => if u = t then some (.held t) else none
  | _ => none

def exit (m : Mutex τ) (t : τ) : Mutex τ :=
  match m with
  | .held u => if u = t then .ownerDead else m
  | .inconsistent u => if u = t then .ownerDead else m
  | _ => m

def holdOf (m : Mutex τ) (t : τ) : Hold :=
  match m with
  | .held u => if u = t then .clean else .none
  | .inconsistent u => if u = t then .dirty else .none
  | _ => .none

def Owns (m : Mutex τ) (t : τ) : Prop := m.holdOf t ≠ .none

/-- What a call of one thread's leaves as it was: the holds of the others, and a mutex that is not
recoverable. -/
structure Aside (t : τ) (m m' : Mutex τ) : Prop where
  others : ∀ u, u ≠ t → m'.holdOf u = m.holdOf u
  stays : m = .notRecoverable → m' = .notRecoverable

theorem Aside.refl (t : τ) (m : Mutex τ) : Aside t m m := ⟨fun _ _ => rfl, id⟩

theorem holdOf_held (t : τ) : (held t).holdOf t = .clean := if_pos rfl

theorem holdOf_inconsistent (t : τ) : (inconsistent t).holdOf t = .dirty := if_pos rfl

theorem holdOf_held_other (h : u ≠ t) : (held t).holdOf u = .none := if_neg h.symm

theorem holdOf_inconsistent_other (h : u ≠ t) : (inconsistent t).holdOf u = .none := if_neg h.symm

theorem ne_of_held (h : (held u).holdOf t = .none) : u ≠ t := by
  rintro rfl
  rw [holdOf_held] at h
  cases h

theorem ne_of_inconsistent (h : (inconsistent u).holdOf t = .none) : u ≠ t := by
  rintro rfl
  rw [holdOf_inconsistent] at h
  cases h

theorem eq_held (h : m.holdOf t = .clean) : m = .held t := by
  cases m with
  | held u =>
    by_cases hu : u = t
    · rw [hu]
    · rw [holdOf, if_neg hu] at h
      cases h
  | inconsistent u =>
    rw [holdOf] at h
    split at h <;> cases h
  | _ => cases h

theorem eq_inconsistent (h : m.holdOf t = .dirty) : m = .inconsistent t := by
  cases m with
  | inconsistent u =>
    by_cases hu : u = t
    · rw [hu]
    · rw [holdOf, if_neg hu] at h
      cases h
  | held u =>
    rw [holdOf] at h
    split at h <;> cases h
  | _ => cases h

/-- How `pthread_mutex_lock` returns to a thread that does not hold the mutex. -/
theorem lock_cases (hn : m.holdOf t = .none) (h : m.lock t = some (r, m')) :
    Aside t m m' ∧
      (r = .ok ∧ m = .free ∧ m' = .held t ∨
        r = .eownerdead ∧ m = .ownerDead ∧ m' = .inconsistent t ∨
        r = .enotrecoverable ∧ m = .notRecoverable ∧ m' = .notRecoverable) := by
  cases m with
  | free =>
    cases h
    exact ⟨⟨fun u hu => holdOf_held_other hu, fun h => by cases h⟩, .inl ⟨rfl, rfl, rfl⟩⟩
  | held u =>
    rw [lock, if_neg (ne_of_held hn)] at h
    cases h
  | ownerDead =>
    cases h
    exact ⟨⟨fun u hu => holdOf_inconsistent_other hu, fun h => by cases h⟩,
      .inr (.inl ⟨rfl, rfl, rfl⟩)⟩
  | inconsistent u =>
    rw [lock, if_neg (ne_of_inconsistent hn)] at h
    cases h
  | notRecoverable =>
    cases h
    exact ⟨.refl _ _, .inr (.inr ⟨rfl, rfl, rfl⟩)⟩

theorem lock_held (t : τ) : (held t).lock t = some (.edeadlk, .held t) := if_pos rfl

theorem consistent_inconsistent (t : τ) : (inconsistent t).consistent t = some (.held t) :=
  if_pos rfl

theorem aside_consistent (t : τ) : Aside t (inconsistent t) (held t) where
  others u hu := (holdOf_held_other hu).trans (holdOf_inconsistent_other hu).symm
  stays h := by cases h

theorem Aside.of_owner (hm : m.holdOf t ≠ .none) (h : ∀ u, m'.holdOf u = .none) :
    Aside t m m' := by
  cases hold : m.holdOf t with
  | none => exact absurd hold hm
  | clean =>
    rw [eq_held hold]
    exact ⟨fun u hu => (h u).trans (holdOf_held_other hu).symm, fun h => by cases h⟩
  | dirty =>
    rw [eq_inconsistent hold]
    exact ⟨fun u hu => (h u).trans (holdOf_inconsistent_other hu).symm, fun h => by cases h⟩

theorem unlock_held (t : τ) : (held t).unlock t = .free := if_pos rfl

theorem unlock_inconsistent (t : τ) : (inconsistent t).unlock t = .notRecoverable := if_pos rfl

theorem exit_held (t : τ) : (held t).exit t = .ownerDead := if_pos rfl

theorem exit_inconsistent (t : τ) : (inconsistent t).exit t = .ownerDead := if_pos rfl

theorem eq_self_of_hold_none (h : m.holdOf t = .none) : m.unlock t = m ∧ m.exit t = m := by
  cases m with
  | held u => exact ⟨if_neg (ne_of_held h), if_neg (ne_of_held h)⟩
  | inconsistent u => exact ⟨if_neg (ne_of_inconsistent h), if_neg (ne_of_inconsistent h)⟩
  | _ => exact ⟨rfl, rfl⟩

theorem unlock_spec (m : Mutex τ) (t : τ) :
    Aside t m (m.unlock t) ∧ (m.unlock t).holdOf t = .none ∧
      (m.unlock t = .notRecoverable → m = .notRecoverable ∨ m.holdOf t = .dirty) := by
  cases hold : m.holdOf t with
  | none =>
    rw [(eq_self_of_hold_none hold).1]
    exact ⟨.refl _ _, hold, .inl⟩
  | clean =>
    have hm := eq_held hold
    rw [hm, unlock_held, ← hm]
    exact ⟨.of_owner (by rw [hold]; decide) fun _ => rfl, rfl, fun h => by cases h⟩
  | dirty =>
    have hm := eq_inconsistent hold
    rw [hm, unlock_inconsistent, ← hm]
    exact ⟨.of_owner (by rw [hold]; decide) fun _ => rfl, rfl, fun _ => .inr rfl⟩

theorem exit_spec (m : Mutex τ) (t : τ) :
    Aside t m (m.exit t) ∧ (m.exit t).holdOf t = .none ∧
      (m.exit t = .notRecoverable → m = .notRecoverable) := by
  cases hold : m.holdOf t with
  | none =>
    rw [(eq_self_of_hold_none hold).2]
    exact ⟨.refl _ _, hold, id⟩
  | clean =>
    have hm := eq_held hold
    rw [hm, exit_held, ← hm]
    exact ⟨.of_owner (by rw [hold]; decide) fun _ => rfl, rfl, fun h => by cases h⟩
  | dirty =>
    have hm := eq_inconsistent hold
    rw [hm, exit_inconsistent, ← hm]
    exact ⟨.of_owner (by rw [hold]; decide) fun _ => rfl, rfl, fun h => by cases h⟩

end Mutex

end SysPrg
