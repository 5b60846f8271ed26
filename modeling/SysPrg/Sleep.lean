import SysPrg.Kernel

namespace SysPrg.Sleep
set_option autoImplicit true

structure Timespec where
  tvSec : Int64
  tvNsec : Int64
  deriving DecidableEq, Repr

def Timespec.ns (t : Timespec) : Int := t.tvSec.toInt * 1000000000 + t.tvNsec.toInt

def Timespec.Valid (t : Timespec) : Prop := 0 ≤ t.tvSec ∧ 0 ≤ t.tvNsec ∧ t.tvNsec < 1000000000

instance (t : Timespec) : Decidable t.Valid := inferInstanceAs (Decidable (_ ∧ _ ∧ _))

inductive Outcome where
  | done
  | eintr (elapsed : Int) (rem : Timespec)
  | einval
  deriving DecidableEq, Repr

def Outcome.ret : Outcome → Int32
  | .done => 0
  | _ => -1

def Outcome.errno : Outcome → Option Errno
  | .done => none
  | .eintr _ _ => some .eintr
  | .einval => some .einval

/-- The variable `rem` after the call; only an interrupted call stores to it. -/
def Outcome.store (rem : Timespec) : Outcome → Timespec
  | .eintr _ rem' => rem'
  | _ => rem

def Outcome.slept (req : Timespec) : Outcome → Int
  | .done => req.ns
  | .eintr elapsed _ => elapsed
  | .einval => 0

/-- The outcomes that the calls can have when the first is asked for `req` and each further one for
what the one before has left. -/
inductive Outcomes : Timespec → List Outcome → Prop where
  | asleep (req : Timespec) : Outcomes req []
  | done (h : req.Valid) : Outcomes req [.done]
  | einval (h : ¬ req.Valid) : Outcomes req [.einval]
  | eintr (h : req.Valid) (htime : elapsed + rem.ns = req.ns) (hos : Outcomes rem os) :
      Outcomes req (.eintr elapsed rem :: os)

/-- Where a sleep has got to: the value returned, if it has, the time slept and the remainders
printed. -/
structure Progress where
  status : Option Int32
  slept : Int
  printed : List Timespec
  deriving DecidableEq, Repr

def rSleepLoop (req rem : Timespec) : List Outcome → Progress
  | [] => ⟨none, 0, []⟩
  | o :: os =>
    if o.ret = -1 then
      if o.errno ≠ some .eintr then ⟨some (-1), o.slept req, []⟩
      else
        let next := rSleepLoop (o.store rem) (o.store rem) os
        { next with slept := o.slept req + next.slept }
    else ⟨some 0, o.slept req, []⟩

/-- The local variable `rem` holds anything at first. -/
def rSleep (sec nsec : Int64) (rem : Timespec) (os : List Outcome) : Progress :=
  rSleepLoop ⟨sec, nsec⟩ rem os

def sleepsafeLoop (verbose : Bool) (req rem : Timespec) : List Outcome → Progress
  | [] => ⟨none, 0, []⟩
  | o :: os =>
    if o.ret = -1 ∧ o.errno = some .eintr then
      let next := sleepsafeLoop verbose (o.store rem) (o.store rem) os
      { next with
        slept := o.slept req + next.slept
        printed := if verbose then o.store rem :: next.printed else next.printed }
    -- any other error ends the loop, too
    else ⟨some 0, o.slept req, []⟩

def sleepsafe (sec nsec : Int64) (verbose : Bool) (rem : Timespec) (os : List Outcome) : Progress :=
  sleepsafeLoop verbose ⟨sec, nsec⟩ rem os

theorem slept_eq (verbose : Bool) (req rem rem' : Timespec) (os : List Outcome) :
    (rSleepLoop req rem os).slept = (sleepsafeLoop verbose req rem' os).slept := by
  induction os generalizing req rem rem' with
  | nil => rfl
  | cons o os ih =>
    cases o with
    | done => rfl
    | eintr elapsed left => exact congrArg (elapsed + ·) (ih left left left)
    | einval => rfl

theorem status_eq (verbose : Bool) (req rem rem' : Timespec) (h : .einval ∉ os) :
    (rSleepLoop req rem os).status = (sleepsafeLoop verbose req rem' os).status := by
  induction os generalizing req rem rem' with
  | nil => rfl
  | cons o os ih =>
    rw [List.mem_cons, not_or] at h
    cases o with
    | done => rfl
    | eintr elapsed left => exact ih left left left h.2
    | einval => exact (h.1 rfl).elim

theorem rSleep_refused (rem : Timespec) (h : Outcomes req os) (hmem : .einval ∈ os) :
    (rSleepLoop req rem os).status = some (-1) := by
  induction h generalizing rem with
  | asleep => cases hmem
  | done => cases List.mem_singleton.1 hmem
  | einval => rfl
  | eintr _ _ _ ih =>
    rcases List.mem_cons.1 hmem with hmem | hmem
    · cases hmem
    · exact ih _ hmem

theorem sleepsafe_status (verbose : Bool) (req rem : Timespec) (os : List Outcome) :
    (sleepsafeLoop verbose req rem os).status ≠ some (-1) := by
  have hzero : (some 0 : Option Int32) ≠ some (-1) := by decide
  induction os generalizing req rem with
  | nil =>
    intro h
    cases h
  | cons o os ih =>
    cases o with
    | done => exact hzero
    | eintr elapsed left => exact ih left left
    | einval => exact hzero

/-- An interrupted sleep goes on with what is left, so that the parts add up. -/
theorem rSleep_whole (rem : Timespec) (h : Outcomes req os)
    (h0 : (rSleepLoop req rem os).status = some 0) : (rSleepLoop req rem os).slept = req.ns := by
  have hfail : (some (-1) : Option Int32) ≠ some 0 := by decide
  induction h generalizing rem with
  | asleep => cases h0
  | done => rfl
  | einval => exact (hfail h0).elim
  | eintr _ htime _ ih =>
    rw [← htime, ← ih _ h0]
    rfl

theorem refused_iff (h : Outcomes req os) (hne : os ≠ [])
    (hrem : ∀ elapsed rem, .eintr elapsed rem ∈ os → rem.Valid) :
    .einval ∈ os ↔ ¬ req.Valid := by
  induction h with
  | asleep => exact (hne rfl).elim
  | done hvalid =>
    constructor
    · intro hmem
      cases List.mem_singleton.1 hmem
    · intro hno
      exact (hno hvalid).elim
  | einval hno => exact ⟨fun _ => hno, fun _ => List.mem_singleton_self _⟩
  | eintr hvalid _ _ ih =>
    constructor
    · intro hmem
      rcases List.mem_cons.1 hmem with hmem | hmem
      · cases hmem
      · have hleft := hrem _ _ List.mem_cons_self
        have hrest := ih (List.ne_nil_of_mem hmem) fun _ _ he =>
          hrem _ _ (List.mem_cons_of_mem _ he)
        exact (hrest.1 hmem hleft).elim
    · intro hno
      exact (hno hvalid).elim

/-- `sleepsafe` does as `r_sleep` does, but it returns 0 after `EINVAL`. -/
theorem sleeps_agree_iff (sec nsec : Int64) (verbose : Bool) (rem rem' : Timespec)
    (h : Outcomes ⟨sec, nsec⟩ os) :
    ((rSleep sec nsec rem os).slept = (sleepsafe sec nsec verbose rem' os).slept ∧
      (rSleep sec nsec rem os).status = (sleepsafe sec nsec verbose rem' os).status ∧
      ((rSleep sec nsec rem os).status = some 0 →
        (rSleep sec nsec rem os).slept = (Timespec.mk sec nsec).ns) ∧
      ((sleepsafe sec nsec verbose rem' os).status = some 0 →
        (sleepsafe sec nsec verbose rem' os).slept = (Timespec.mk sec nsec).ns)) ↔
    .einval ∉ os := by
  have hslept := slept_eq verbose ⟨sec, nsec⟩ rem rem' os
  constructor
  · rintro ⟨-, hstatus, -⟩ hmem
    have hrefused := rSleep_refused rem h hmem
    exact sleepsafe_status verbose ⟨sec, nsec⟩ rem' os (hstatus.symm.trans hrefused)
  · intro hmem
    have hstatus := status_eq verbose ⟨sec, nsec⟩ rem rem' hmem
    have hwhole := rSleep_whole rem h
    refine ⟨hslept, hstatus, hwhole, ?_⟩
    intro h0
    exact hslept.symm.trans (hwhole (hstatus.trans h0))

theorem sleeps_agree_interrupted :
    (rSleep 2 500000000 ⟨0, 0⟩ [.eintr 700000000 ⟨1, 800000000⟩, .done]).slept = 2500000000 := by
  have hos : Outcomes ⟨2, 500000000⟩ [.eintr 700000000 ⟨1, 800000000⟩, .done] :=
    .eintr (by decide) (by decide) (.done (by decide))
  exact ((sleeps_agree_iff 2 500000000 true ⟨0, 0⟩ ⟨0, 0⟩ hos).2 (by decide)).2.2.1 rfl

/-- A request with a whole second in its nanoseconds. -/
theorem sleepsafe_refused_zero :
    Outcomes ⟨0, 1000000000⟩ [.einval] ∧
    (rSleep 0 1000000000 ⟨0, 0⟩ [.einval]).status = some (-1) ∧
    (sleepsafe 0 1000000000 true ⟨0, 0⟩ [.einval]).status = some 0 ∧
    (sleepsafe 0 1000000000 true ⟨0, 0⟩ [.einval]).slept ≠ (Timespec.mk 0 1000000000).ns :=
  ⟨.einval (by decide), rfl, rfl, by decide⟩

end SysPrg.Sleep
