import SysPrg.Kernel
import SysPrg.Run
import SysPrg.Timeval

namespace SysPrg.RestartTimed
set_option autoImplicit true

open Timeval (Time toInt_add_eq toInt_sub_eq)

def million : Int64 := 1000000

def fdSetsize : Int := 1024

def etime : Errno := .other 62

def gettimeofday (now : Nat) : Time := ⟨.ofNat (now / 1000000), .ofNat (now % 1000000)⟩

def carryUp (t : Time) : Time :=
  if t.tvUsec ≥ million then ⟨t.tvSec + 1, t.tvUsec - million⟩ else t

def carryDown (t : Time) : Time :=
  if t.tvUsec < 0 then ⟨t.tvSec - 1, t.tvUsec + million⟩ else t

/-- The time left until `endTime`; `none` is the return of -1 with `ETIME`. -/
def gettimeout (endTime : Time) (now : Nat) : Option Time :=
  let t := gettimeofday now
  let t := carryDown (carryUp ⟨endTime.tvSec - t.tvSec, endTime.tvUsec - t.tvUsec⟩)
  if t.tvSec < 0 ∨ t.tvSec = 0 ∧ t.tvUsec = 0 then none else some t

/-- Where `waitfdtimed` is. The timeout is what was left when `gettimeofday` was `asked`, and the
`select` with it is called `since` some later time. -/
inductive Pc where
  | enter
  | gettimeout
  | call (asked : Nat) (timeout : Time)
  | select (asked since : Nat) (timeout : Time)
  | ret (v : Int) (errno : Option Errno)
  deriving DecidableEq, Repr

structure Sys where
  now : Nat
  ready : Bool
  pc : Pc

inductive Ev where
  | call (a : Answer)
  | tick
  | arrive
  deriving DecidableEq, Repr

/-- `select` returns when the descriptor is ready, when its timeout is over, or with an error, of
which `ETIME` is none. -/
def Sys.select (s : Sys) (since : Nat) (timeout : Time) : Answer → Pc
  | .fail e =>
    if e = .eintr then .gettimeout else if e = etime then s.pc else .ret (-1) (some e)
  | .done _ =>
    if s.ready then .ret 0 none
    else if since + timeout.micros ≤ s.now then .ret (-1) (some etime)
    else s.pc

def waitfdtimed (fd : Int) (endTime : Time) (s : Sys) (a : Answer) : Pc :=
  match s.pc with
  | .enter => if fd < 0 ∨ fd ≥ fdSetsize then .ret (-1) (some .einval) else .gettimeout
  | .gettimeout =>
    match SysPrg.RestartTimed.gettimeout endTime s.now with
    | none => .ret (-1) (some etime)
    | some timeout => .call s.now timeout
  | .call asked timeout => .select asked s.now timeout
  | .select _ since timeout => s.select since timeout a
  | .ret v e => .ret v e

def Sys.step (fd : Int) (endTime : Time) (s : Sys) : Ev → Sys
  | .call a => { s with pc := waitfdtimed fd endTime s a }
  | .tick => { s with now := s.now + 1 }
  | .arrive => { s with ready := true }

/-- A time whose microseconds one carry makes less than a million, and whose seconds are far from
the ends of their 64 bits. -/
structure Near (t : Time) : Prop where
  usec : 0 ≤ t.tvUsec.toInt ∧ t.tvUsec.toInt < 2000000
  sec : -2 ^ 62 ≤ t.tvSec.toInt ∧ t.tvSec.toInt ≤ 2 ^ 62

def clockEnd : Nat := 2 ^ 62 * 1000000

/-- A timeout that `select` takes, and that from `asked` on ends at `endTime`. -/
structure Fits (endTime : Time) (asked : Nat) (timeout : Time) : Prop where
  ends : asked + timeout.micros = endTime.micros
  pos : 0 < timeout.micros
  sec : 0 ≤ timeout.tvSec.toInt
  usec : 0 ≤ timeout.tvUsec.toInt ∧ timeout.tvUsec.toInt < 1000000

theorem gettimeofday_spec (h : now < clockEnd) :
    (gettimeofday now).tvSec.toInt = now / 1000000 ∧
      (gettimeofday now).tvUsec.toInt = now % 1000000 := by
  unfold clockEnd at h
  constructor
  · exact Int64.toInt_ofNat_of_lt (by omega)
  · exact Int64.toInt_ofNat_of_lt (by omega)

theorem carryUp_spec {sec usec : Int64} (hlo : -1000000 < usec.toInt) (hhi : usec.toInt < 2000000)
    (hsec : -2 ^ 63 < sec.toInt ∧ sec.toInt < 2 ^ 63 - 1) (ht : carryUp ⟨sec, usec⟩ = t) :
    t.micros = sec.toInt * 1000000 + usec.toInt ∧ -1000000 < t.tvUsec.toInt ∧
      t.tvUsec.toInt < 1000000 ∧ -2 ^ 63 < t.tvSec.toInt := by
  subst ht
  have hm : million.toInt = 1000000 := rfl
  have h1 : (1 : Int64).toInt = 1 := rfl
  unfold carryUp
  split
  · next h =>
    have hge : 1000000 ≤ usec.toInt := Int64.le_iff_toInt_le.1 h
    have hs : (sec + 1).toInt = sec.toInt + 1 := toInt_add_eq (by omega) (by omega)
    have hu : (usec - million).toInt = usec.toInt - 1000000 :=
      toInt_sub_eq (by omega) (by omega)
    simp only [Time.micros, hs, hu]
    omega
  · next h =>
    have hlt : usec.toInt < 1000000 := Int.not_le.1 fun hle => h (Int64.le_iff_toInt_le.2 hle)
    exact ⟨rfl, hlo, hlt, hsec.1⟩

theorem carryDown_spec {t : Time} (hlo : -1000000 < t.tvUsec.toInt)
    (hhi : t.tvUsec.toInt < 1000000) (hsec : -2 ^ 63 < t.tvSec.toInt) :
    (carryDown t).micros = t.micros ∧ 0 ≤ (carryDown t).tvUsec.toInt ∧
      (carryDown t).tvUsec.toInt < 1000000 := by
  have hm : million.toInt = 1000000 := rfl
  have h1 : (1 : Int64).toInt = 1 := rfl
  have hmax := t.tvSec.toInt_lt
  unfold carryDown
  split
  · next h =>
    have hneg : t.tvUsec.toInt < 0 := Int64.lt_iff_toInt_lt.1 h
    have hs : (t.tvSec - 1).toInt = t.tvSec.toInt - 1 := toInt_sub_eq (by omega) (by omega)
    have hu : (t.tvUsec + million).toInt = t.tvUsec.toInt + 1000000 :=
      toInt_add_eq (by omega) (by omega)
    simp only [Time.micros, hs, hu]
    omega
  · next h =>
    have hge : 0 ≤ t.tvUsec.toInt := Int.not_lt.1 fun hlt => h (Int64.lt_iff_toInt_lt.2 hlt)
    exact ⟨rfl, hge, hhi⟩

theorem sub_spec (h : Near endTime) (hnow : now < clockEnd) :
    (endTime.tvSec - (gettimeofday now).tvSec).toInt = endTime.tvSec.toInt - now / 1000000 ∧
      (endTime.tvUsec - (gettimeofday now).tvUsec).toInt =
        endTime.tvUsec.toInt - now % 1000000 := by
  obtain ⟨hsec, husec⟩ := gettimeofday_spec hnow
  obtain ⟨⟨hu0, hu1⟩, ⟨hs0, hs1⟩⟩ := h
  unfold clockEnd at hnow
  rw [← hsec, ← husec]
  exact ⟨toInt_sub_eq (by omega) (by omega), toInt_sub_eq (by omega) (by omega)⟩

/-- `gettimeout` gives the time left, with the microseconds in range, unless there is none left. -/
theorem gettimeout_spec (h : Near endTime) (hnow : now < clockEnd) :
    (gettimeout endTime now = none ∧ endTime.micros ≤ now) ∨
      ∃ t, gettimeout endTime now = some t ∧ Fits endTime now t := by
  obtain ⟨hs, hu⟩ := sub_spec h hnow
  obtain ⟨⟨hu0, hu1⟩, ⟨hs0, hs1⟩⟩ := h
  unfold clockEnd at hnow
  simp only [gettimeout]
  generalize endTime.tvSec - (gettimeofday now).tvSec = sec at *
  generalize endTime.tvUsec - (gettimeofday now).tvUsec = usec at *
  obtain ⟨hup, hup0, hup1, hup2⟩ :=
    carryUp_spec (t := carryUp ⟨sec, usec⟩) (by omega) (by omega) (by omega) rfl
  obtain ⟨hdown, h0, h1⟩ := carryDown_spec hup0 hup1 hup2
  rw [hup] at hdown
  generalize carryDown (carryUp ⟨sec, usec⟩) = t at *
  have hend : endTime.micros = endTime.tvSec.toInt * 1000000 + endTime.tvUsec.toInt := rfl
  have ht : t.micros = t.tvSec.toInt * 1000000 + t.tvUsec.toInt := rfl
  have hneg : t.tvSec < 0 ↔ t.tvSec.toInt < 0 := Int64.lt_iff_toInt_lt
  have hz : t.tvSec = 0 ∧ t.tvUsec = 0 ↔ t.tvSec.toInt = 0 ∧ t.tvUsec.toInt = 0 := by
    rw [← Int64.toInt_inj, ← Int64.toInt_inj]
    rfl
  by_cases hnone : t.tvSec < 0 ∨ t.tvSec = 0 ∧ t.tvUsec = 0
  · refine .inl ⟨if_pos hnone, ?_⟩
    rw [hneg, hz] at hnone
    omega
  · refine .inr ⟨t, if_neg hnone, ?_⟩
    rw [hneg, hz] at hnone
    exact ⟨by omega, by omega, by omega, h0, h1⟩

/-- What is known where the program is. A `select` ends as much after `endTime` as it was called
after the time was asked for. -/
def Pc.Timed (endTime : Time) (s : Sys) : Pc → Prop
  | .call asked timeout => asked ≤ s.now ∧ Fits endTime asked timeout
  | .select asked since timeout => asked ≤ since ∧ since ≤ s.now ∧ Fits endTime asked timeout
  | .ret v errno => (v = 0 → s.ready = true) ∧
      (v = -1 → errno = some etime → endTime.micros ≤ s.now) ∧ errno ≠ some .eintr
  | .enter | .gettimeout => True

theorem select_timed (h : (Pc.select asked since timeout).Timed endTime s)
    (hpc : s.pc = .select asked since timeout) (a : Answer) :
    (s.select since timeout a).Timed endTime s := by
  cases a with
  | fail e =>
    simp only [Sys.select]
    split
    · trivial
    · next hintr =>
      split
      · rw [hpc]
        exact h
      · next htime =>
        exact ⟨nofun, fun _ he => (htime (Option.some.inj he)).elim,
          fun he => hintr (Option.some.inj he)⟩
  | done k =>
    simp only [Sys.select]
    split
    · next hr => exact ⟨fun _ => hr, nofun, nofun⟩
    · split
      · next hle =>
        have hasked := h.1
        have hends := h.2.2.ends
        exact ⟨nofun, fun _ _ => by omega, nofun⟩
      · rw [hpc]
        exact h

theorem waitfdtimed_timed {s : Sys} (hend : Near endTime) (hnow : s.now < clockEnd)
    (h : s.pc.Timed endTime s) (fd : Int) (a : Answer) :
    (waitfdtimed fd endTime s a).Timed endTime s := by
  unfold waitfdtimed
  cases hpc : s.pc with
  | enter =>
    simp only
    split
    · exact ⟨nofun, nofun, nofun⟩
    · trivial
  | gettimeout =>
    rcases gettimeout_spec hend hnow with ⟨hnone, hle⟩ | ⟨t, hsome, ht⟩
    · simp only [hnone]
      exact ⟨nofun, fun _ _ => hle, nofun⟩
    · simp only [hsome]
      exact ⟨Nat.le_refl _, ht⟩
  | call asked timeout =>
    rw [hpc] at h
    exact ⟨h.1, Nat.le_refl _, h.2⟩
  | select asked since timeout =>
    rw [hpc] at h
    exact select_timed h hpc a
  | ret v e =>
    rw [hpc] at h
    exact h

theorem Pc.Timed.mono {pc : Pc} (h : pc.Timed endTime s) (hnow : s.now ≤ s'.now)
    (hready : s.ready = true → s'.ready = true) : pc.Timed endTime s' := by
  cases pc with
  | enter | gettimeout => trivial
  | call asked timeout => exact ⟨h.1.trans hnow, h.2⟩
  | select asked since timeout => exact ⟨h.1, h.2.1.trans hnow, h.2.2⟩
  | ret v e =>
    refine ⟨fun hv => hready (h.1 hv), fun hv he => ?_, h.2.2⟩
    have hle := h.2.1 hv he
    omega

theorem step_now_le (s : Sys) (e : Ev) : s.now ≤ (s.step fd endTime e).now := by
  cases e with
  | call a | arrive => exact Nat.le_refl _
  | tick => exact Nat.le_succ _

theorem step_timed {s : Sys} (hend : Near endTime)
    (h : s.now < clockEnd → s.pc.Timed endTime s) (fd : Int) (e : Ev)
    (hnow : (s.step fd endTime e).now < clockEnd) :
    (s.step fd endTime e).pc.Timed endTime (s.step fd endTime e) := by
  -- the clock only goes on, so it was not at its end before the step, either
  have hnow' : s.now < clockEnd := (step_now_le s e).trans_lt hnow
  cases e with
  | call a => exact (waitfdtimed_timed hend hnow' (h hnow') fd a).mono (Nat.le_refl _) id
  | tick => exact (h hnow').mono (Nat.le_succ _) id
  | arrive => exact (h hnow').mono (Nat.le_refl _) fun _ => rfl

/-- However often `waitfdtimed` is interrupted, until the clock is near its end: each `select` that
it makes has a timeout in range, and ends after `endTime` by what went by between its own
`gettimeofday` and itself, not later for the restarts. It says that the descriptor is ready only
when it is, gives up with `ETIME` only when the time has come, and never with `EINTR`. -/
theorem waitfdtimed_deadline {endTime : Time} (hend : Near endTime) (fd : Int) (now : Nat)
    (ready : Bool) (es : List Ev) :
    let s := run (Sys.step fd endTime) ⟨now, ready, .enter⟩ es
    s.now < clockEnd →
    (∀ asked since timeout, s.pc = .select asked since timeout →
      asked ≤ since ∧ since ≤ s.now ∧
      since + timeout.micros = endTime.micros + (since - asked : Nat) ∧
      0 < timeout.micros ∧ 0 ≤ timeout.tvSec.toInt ∧
      0 ≤ timeout.tvUsec.toInt ∧ timeout.tvUsec.toInt < 1000000) ∧
    ∀ v errno, s.pc = .ret v errno → (v = 0 → s.ready = true) ∧
      (v = -1 → errno = some etime → endTime.micros ≤ s.now) ∧ errno ≠ some .eintr := by
  intro s hnow
  have hstart : Pc.Timed endTime ⟨now, ready, .enter⟩ .enter := trivial
  have hinv : s.now < clockEnd → s.pc.Timed endTime s :=
    run_invariant (fun s : Sys => s.now < clockEnd → s.pc.Timed endTime s)
      (fun _ e hs => step_timed hend hs fd e) (fun _ => hstart) es
  have htimed := hinv hnow
  refine ⟨?_, ?_⟩
  · intro asked since timeout hpc
    rw [hpc] at htimed
    obtain ⟨hasked, hsince, hfits⟩ := htimed
    have hends := hfits.ends
    exact ⟨hasked, hsince, by omega, hfits.pos, hfits.sec, hfits.usec⟩
  · intro v errno hpc
    rw [hpc] at htimed
    exact htimed

theorem waitfdtimed_deadline_interrupted :
    Near ⟨2, 500⟩ ∧
      (run (Sys.step 0 ⟨2, 500⟩) ⟨1999999, false, .enter⟩ [.call (.done 0), .call (.done 0),
        .call (.done 0), .tick, .call (.fail .eintr), .call (.done 0), .tick,
        .call (.done 0)]).pc = .select 2000000 2000001 ⟨0, 500⟩ ∧
      (2000001 : Int) + Time.micros ⟨0, 500⟩ = Time.micros ⟨2, 500⟩ + 1 := by
  have hend : Near ⟨2, 500⟩ := ⟨by decide, by decide⟩
  have hpc : (run (Sys.step 0 ⟨2, 500⟩) ⟨1999999, false, .enter⟩ [.call (.done 0), .call (.done 0),
      .call (.done 0), .tick, .call (.fail .eintr), .call (.done 0), .tick,
      .call (.done 0)]).pc = .select 2000000 2000001 ⟨0, 500⟩ := by
    decide +kernel
  exact ⟨hend, hpc, ((waitfdtimed_deadline hend 0 1999999 false _ (by decide)).1 _ _ _ hpc).2.2.1⟩

end SysPrg.RestartTimed
