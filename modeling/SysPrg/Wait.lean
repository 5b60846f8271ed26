import Mathlib.Logic.Basic

namespace SysPrg
set_option autoImplicit true

inductive Death where
  | exited (status : Nat)
  | signaled (sig : Nat) (core : Bool)
  deriving DecidableEq, Repr

inductive WaitStatus where
  | died (d : Death)
  | stopped (sig : Nat)
  deriving DecidableEq, Repr

/-- A child process as its parent may find it. A stop is reported once. -/
inductive ChildState where
  | running
  | stopped (sig : Nat) (reported : Bool)
  | zombie (d : Death)
  | reaped
  deriving DecidableEq, Repr

inductive ChildEv where
  | exit (status : Nat)
  | kill (sig : Nat) (core : Bool)
  | stop (sig : Nat)
  | cont
  deriving DecidableEq, Repr

namespace ChildState

/-- A stopped child runs again when it is continued; until then it can only be killed. -/
def step : ChildState → ChildEv → ChildState
  | .running, .exit status => .zombie (.exited status)
  | .running, .kill sig core => .zombie (.signaled sig core)
  | .running, .stop sig => .stopped sig false
  | .stopped _ _, .kill sig core => .zombie (.signaled sig core)
  | .stopped _ _, .cont => .running
  | s, _ => s

/-- A child that `wait` can return for, with the status it reports and what it leaves of the
child; with `WUNTRACED` also one that has stopped. -/
def wait (untraced : Bool) : ChildState → Option (WaitStatus × ChildState)
  | .zombie d => some (.died d, .reaped)
  | .stopped sig false => if untraced then some (.stopped sig, .stopped sig true) else none
  | _ => none

theorem step_eq_reaped (s : ChildState) (e : ChildEv) : s.step e = .reaped ↔ s = .reaped := by
  cases s with
  | running => cases e <;> exact ⟨fun h => (by cases h), fun h => (by cases h)⟩
  | stopped sig r => cases e <;> exact ⟨fun h => (by cases h), fun h => (by cases h)⟩
  | zombie d => exact Iff.rfl
  | reaped => exact Iff.rfl

theorem not_reaped_of_wait (h : wait untraced s = some r) : s ≠ .reaped := by
  rintro rfl
  cases h

theorem wait_died (h : wait untraced s = some (.died d, s')) : s' = .reaped := by
  cases s with
  | zombie d' =>
    cases h
    rfl
  | stopped sig r =>
    cases r with
    | false =>
      rw [wait] at h
      split at h <;> cases h
    | true => cases h
  | _ => cases h

theorem wait_stopped (h : wait untraced s = some (.stopped sig, s')) : s = .stopped sig false := by
  cases s with
  | stopped sig' r =>
    cases r with
    | false =>
      rw [wait] at h
      split at h <;> cases h
      rfl
    | true => cases h
  | _ => cases h

end ChildState

end SysPrg
