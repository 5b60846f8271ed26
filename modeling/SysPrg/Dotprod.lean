import Mathlib.Algebra.Ring.Int.Defs
import Mathlib.Logic.Function.Basic
import SysPrg.RobustMutex
import SysPrg.Run

namespace SysPrg.Dotprod
set_option autoImplicit true

structure DotData (R : Type) where
  a : Nat → R
  b : Nat → R
  veclen : Nat

/-- Where a thread is in `dotprod`. The update of `sum` is a load and a store, with the old value
in a register between them. -/
inductive Pc (R : Type) where
  | idle
  | lock1
  | consistent
  | dropped
  | relock
  | unlock1
  | product
  | lock2 (mysum : R)
  | load (mysum : R)
  | store (mysum reg : R)
  | unlock2
  | exit
  | gone
  deriving DecidableEq, Repr

inductive MainPc (R : Type) where
  | create (i : Nat)
  | join (i : Nat)
  | print
  | printed (sum : R)
  deriving DecidableEq, Repr

structure Sys (R : Type) where
  mutex : Mutex Nat
  sum : R
  pc : Nat → Pc R
  main : MainPc R

inductive Ev where
  | main
  | thread (offset : Nat)
  deriving DecidableEq, Repr

section
variable {R : Type}

def Sys.start [Zero R] : Sys R := ⟨.free, 0, fun _ => .idle, .create 0⟩

/-- The loop over the part of the vectors that is the thread's. -/
def DotData.mysum [Zero R] [Add R] [Mul R] (data : DotData R) (offset : Nat) : R :=
  (List.range' (offset * data.veclen) data.veclen).foldl (fun s i => s + data.a i * data.b i) 0

def Sys.goto (s : Sys R) (t : Nat) (m : Mutex Nat) (pc : Pc R) : Sys R :=
  { s with mutex := m, pc := Function.update s.pc t pc }

def afterLock (t : Nat) : Pc R := if t = 0 then .relock else .unlock1

/-- A step of the thread with offset `t`, at `pc` in `dotprod`. The results of the second lock and
of every unlock are not looked at, and the third thread does not unlock at the end. -/
def Sys.thread [Zero R] [Add R] [Mul R] (data : DotData R) (s : Sys R) (t : Nat) :
    Pc R → Sys R
  | .idle => s
  | .lock1 =>
    match s.mutex.lock t with
    | none => s
    | some (r, m) => s.goto t m (if r = .eownerdead then .consistent else afterLock t)
  | .consistent =>
    match s.mutex.consistent t with
    | none => s.goto t s.mutex .dropped
    | some m => s.goto t m (afterLock t)
  | .dropped => s.goto t (s.mutex.unlock t) (afterLock t)
  | .relock =>
    match s.mutex.lock t with
    | none => s
    | some (_, m) => s.goto t m .unlock1
  | .unlock1 => s.goto t (s.mutex.unlock t) .product
  | .product => s.goto t s.mutex (.lock2 (data.mysum t))
  | .lock2 mysum =>
    match s.mutex.lock t with
    | none => s
    | some (_, m) => s.goto t m (.load mysum)
  | .load mysum => s.goto t s.mutex (.store mysum s.sum)
  | .store mysum reg =>
    Sys.goto { s with sum := reg + mysum } t s.mutex (if t ≠ 2 then .unlock2 else .exit)
  | .unlock2 => s.goto t (s.mutex.unlock t) .exit
  | .exit => s.goto t (s.mutex.exit t) .gone
  | .gone => s

/-- A step of `main`, with `NUMTHRDS = n`. -/
def Sys.mainStep (n : Nat) (s : Sys R) : Sys R :=
  match s.main with
  | .create i =>
    if i < n then { s.goto i s.mutex .lock1 with main := .create (i + 1) }
    else { s with main := .join 0 }
  | .join i =>
    if i < n then
      match s.pc i with
      | .gone => { s with main := .join (i + 1) }
      | _ => s
    else { s with main := .print }
  | .print => { s with main := .printed s.sum }
  | .printed _ => s

def Sys.step [Zero R] [Add R] [Mul R] (data : DotData R) (n : Nat) (s : Sys R) : Ev → Sys R
  | .main => s.mainStep n
  | .thread t => s.thread data t (s.pc t)

def Pc.updating : Pc R → Prop
  | .load _ | .store _ _ => True
  | _ => False

def Sys.Owned (s : Sys R) : Prop := ∀ t, (s.pc t).updating → s.mutex.Owns t

/-- A second lock is called on a mutex that is not recoverable any more. -/
def lostLock (s : Sys R) : Ev → Bool
  | .main => false
  | .thread t =>
    match s.pc t, s.mutex with
    | .lock2 _, .notRecoverable => true
    | _, _ => false

/-- A second lock is the first one after the death of the owner. -/
def findsDead (s : Sys R) : Ev → Bool
  | .main => false
  | .thread t =>
    match s.pc t, s.mutex with
    | .lock2 _, .ownerDead => true
    | _, _ => false

/-- How a thread past its second lock holds the mutex: dirty only if it may have been the one to
find the owner dead. -/
def Kept (found : Prop) (m : Mutex Nat) (t : Nat) : Prop :=
  m.holdOf t = .clean ∨ found ∧ m.holdOf t = .dirty

def Pc.Fits (found : Prop) (m : Mutex Nat) (t : Nat) : Pc R → Prop
  | .idle | .lock1 | .product | .lock2 _ | .gone => m.holdOf t = .none
  | .consistent => m.holdOf t = .dirty
  | .dropped => False
  | .relock | .unlock1 => m.holdOf t = .clean ∨ m = .notRecoverable
  | .load _ | .store _ _ => Kept found m t
  | .unlock2 => t ≠ 2 ∧ Kept found m t
  | .exit => if t ≠ 2 then m.holdOf t = .none else Kept found m t

/-- What holds as long as no second lock was lost, and none found the owner dead unless `found`. -/
structure Sys.Inv (found : Prop) (s : Sys R) : Prop where
  fits : ∀ t, (s.pc t).Fits found s.mutex t
  uncreated : ∀ i, s.main = .create i → ∀ t, i ≤ t → s.pc t = .idle
  sane : s.mutex = .notRecoverable → found

theorem Kept.congr (h : Kept found m t) (hm : m'.holdOf t = m.holdOf t) : Kept found m' t := by
  unfold Kept
  rw [hm]
  exact h

theorem Pc.Fits.aside {pc : Pc R} (h : pc.Fits found m u) (ha : Mutex.Aside t m m')
    (hu : u ≠ t) : pc.Fits found m' u := by
  have hm := ha.others u hu
  cases pc with
  | dropped => exact h
  | relock => exact h.imp hm.trans ha.stays
  | unlock1 => exact h.imp hm.trans ha.stays
  | load v => exact Kept.congr h hm
  | store v r => exact Kept.congr h hm
  | unlock2 => exact ⟨h.1, h.2.congr hm⟩
  | exit =>
    by_cases h2 : u ≠ 2
    · have h0 : m.holdOf u = .none := (if_pos h2).mp h
      exact (if_pos h2).mpr (hm.trans h0)
    · have hk : Kept found m u := (if_neg h2).mp h
      exact (if_neg h2).mpr (hk.congr hm)
  | _ => exact hm.trans h

theorem start_inv [Zero R] (found : Prop) : (Sys.start : Sys R).Inv found where
  fits _ := rfl
  uncreated _ _ _ _ := rfl
  sane h := by cases h

theorem Sys.Inv.move {s : Sys R} {pc : Pc R} (h : s.Inv found) (hpc : s.pc t ≠ .idle)
    (ha : Mutex.Aside t s.mutex m) (hfit : pc.Fits found m t)
    (hsane : m = .notRecoverable → found) : (s.goto t m pc).Inv found where
  fits := by
    apply (Function.forall_update_iff s.pc (fun u p => p.Fits found m u)).mpr
    exact ⟨hfit, fun u hu => (h.fits u).aside ha hu⟩
  uncreated := by
    intro i hi u hu
    have hut : u ≠ t := by
      rintro rfl
      exact hpc (h.uncreated i hi u hu)
    change Function.update s.pc t pc u = .idle
    rw [Function.update_of_ne hut]
    exact h.uncreated i hi u hu
  sane := hsane

theorem Sys.Inv.setSum {s : Sys R} (h : s.Inv found) (v : R) :
    ({ s with sum := v } : Sys R).Inv found :=
  ⟨h.fits, h.uncreated, h.sane⟩

theorem fits_afterLock (h : m.holdOf t = .clean ∨ m = .notRecoverable) :
    (afterLock t : Pc R).Fits found m t := by
  unfold afterLock
  split
  · exact h
  · exact h

theorem Sys.Inv.thread [Zero R] [Add R] [Mul R] {s : Sys R} (data : DotData R)
    (h : s.Inv found) (t : Nat) (hlost : lostLock s (.thread t) = false)
    (hdead : findsDead s (.thread t) = true → found) : (s.thread data t (s.pc t)).Inv found := by
  by_cases hne : s.pc t = .idle
  · rw [hne]
    exact h
  have hfit := h.fits t
  cases hpc : s.pc t with
  | idle => exact h
  | gone => exact h
  | lock1 =>
    rw [hpc] at hfit
    simp only [Sys.thread]
    cases hl : s.mutex.lock t with
    | none => exact h
    | some rm =>
      obtain ⟨r, m⟩ := rm
      obtain ⟨ha, ⟨rfl, -, rfl⟩ | ⟨rfl, -, rfl⟩ | ⟨rfl, hm, rfl⟩⟩ := Mutex.lock_cases hfit hl
      · exact h.move hne ha (fits_afterLock (.inl (Mutex.holdOf_held t))) (fun h => by cases h)
      · exact h.move hne ha (Mutex.holdOf_inconsistent t) (fun h => by cases h)
      · exact h.move hne ha (fits_afterLock (.inr rfl)) (fun _ => h.sane hm)
  | consistent =>
    rw [hpc] at hfit
    have hm : s.mutex = .inconsistent t := Mutex.eq_inconsistent hfit
    simp only [Sys.thread, hm, Mutex.consistent_inconsistent]
    exact h.move hne (hm ▸ Mutex.aside_consistent t)
      (fits_afterLock (.inl (Mutex.holdOf_held t))) (fun h => by cases h)
  | dropped =>
    rw [hpc] at hfit
    exact hfit.elim
  | relock =>
    rw [hpc] at hfit
    -- The lock fails, and with it nothing changes.
    have hl : ∃ r, s.mutex.lock t = some (r, s.mutex) := by
      rcases hfit with hc | hm
      · rw [Mutex.eq_held hc]
        exact ⟨_, Mutex.lock_held t⟩
      · rw [hm]
        exact ⟨_, rfl⟩
    obtain ⟨r, hl⟩ := hl
    simp only [Sys.thread, hl]
    exact h.move hne (.refl _ _) hfit h.sane
  | unlock1 =>
    rw [hpc] at hfit
    obtain ⟨ha, hnone, hrec⟩ := s.mutex.unlock_spec t
    refine h.move hne ha hnone fun hm => ?_
    rcases hrec hm with hr | hd
    · exact h.sane hr
    · rcases hfit with hc | hr
      · rw [hc] at hd
        cases hd
      · exact h.sane hr
  | product =>
    rw [hpc] at hfit
    exact h.move hne (.refl _ _) hfit h.sane
  | lock2 mysum =>
    rw [hpc] at hfit
    simp only [lostLock, findsDead, hpc] at hlost hdead
    simp only [Sys.thread]
    cases hl : s.mutex.lock t with
    | none => exact h
    | some rm =>
      obtain ⟨r, m⟩ := rm
      obtain ⟨ha, ⟨rfl, -, rfl⟩ | ⟨rfl, hm, rfl⟩ | ⟨rfl, hm, rfl⟩⟩ := Mutex.lock_cases hfit hl
      · exact h.move hne ha (.inl (Mutex.holdOf_held t)) (fun h => by cases h)
      · rw [hm] at hdead
        exact h.move hne ha (.inr ⟨hdead rfl, Mutex.holdOf_inconsistent t⟩) (fun h => by cases h)
      · rw [hm] at hlost
        cases hlost
  | load mysum =>
    rw [hpc] at hfit
    exact h.move hne (.refl _ _) hfit h.sane
  | store mysum reg =>
    rw [hpc] at hfit
    refine (h.setSum (reg + mysum)).move hne (.refl _ _) ?_ h.sane
    split
    · next h2 => exact ⟨h2, hfit⟩
    · next h2 => exact (if_neg h2).mpr hfit
  | unlock2 =>
    rw [hpc] at hfit
    obtain ⟨h2, hkept⟩ := hfit
    obtain ⟨ha, hnone, hrec⟩ := s.mutex.unlock_spec t
    refine h.move hne ha ((if_pos h2).mpr hnone) fun hm => ?_
    rcases hrec hm with hr | hd
    · exact h.sane hr
    · rcases hkept with hc | ⟨hf, -⟩
      · rw [hc] at hd
        cases hd
      · exact hf
  | exit =>
    obtain ⟨ha, hnone, hrec⟩ := s.mutex.exit_spec t
    exact h.move hne ha hnone fun hm => h.sane (hrec hm)

theorem Sys.Inv.mainStep {s : Sys R} (h : s.Inv found) (n : Nat) :
    (s.mainStep n).Inv found := by
  unfold Sys.mainStep
  split
  · next i hi =>
    split
    · have hidle : s.pc i = .idle := h.uncreated i hi i (Nat.le_refl i)
      have hnone : s.mutex.holdOf i = .none := by
        have hfit := h.fits i
        rw [hidle] at hfit
        exact hfit
      refine ⟨?_, ?_, h.sane⟩
      · apply (Function.forall_update_iff s.pc (fun u p => p.Fits found s.mutex u)).mpr
        exact ⟨hnone, fun u _ => h.fits u⟩
      · intro j hj u hu
        obtain rfl : i + 1 = j := MainPc.create.inj hj
        change Function.update s.pc i .lock1 u = .idle
        rw [Function.update_of_ne (by omega)]
        exact h.uncreated i hi u (by omega)
    · exact ⟨h.fits, fun j hj => (by cases hj), h.sane⟩
  · split
    · split
      · exact ⟨h.fits, fun j hj => (by cases hj), h.sane⟩
      · exact h
    · exact ⟨h.fits, fun j hj => (by cases hj), h.sane⟩
  · exact ⟨h.fits, fun j hj => (by cases hj), h.sane⟩
  · exact h

variable [Zero R] [Add R] [Mul R]

theorem Sys.Inv.step (data : DotData R) (n : Nat) {s : Sys R} (h : s.Inv found) (e : Ev)
    (hlost : lostLock s e = false) (hdead : findsDead s e = true → found) :
    (s.step data n e).Inv found := by
  cases e with
  | main => exact h.mainStep n
  | thread t => exact h.thread data t hlost hdead

omit [Zero R] [Add R] [Mul R] in
theorem Sys.Inv.owned {s : Sys R} (h : s.Inv found) : s.Owned := by
  intro t ht
  have hfit := h.fits t
  have hkept : Kept found s.mutex t := by
    cases hpc : s.pc t with
    | load v =>
      rw [hpc] at hfit
      exact hfit
    | store v r =>
      rw [hpc] at hfit
      exact hfit
    | _ =>
      rw [hpc] at ht
      exact ht.elim
  rcases hkept with hc | ⟨-, hd⟩
  · exact ne_of_eq_of_ne hc (by decide)
  · exact ne_of_eq_of_ne hd (by decide)

theorem lostLock_breaks (data : DotData R) (n : Nat) (s : Sys R) (e : Ev)
    (hlost : lostLock s e = true) : ¬ (s.step data n e).Owned := by
  cases e with
  | main => cases hlost
  | thread t =>
    simp only [lostLock] at hlost
    split at hlost
    · next v hpc hm =>
      intro h
      have hpc' : (s.step data n (.thread t)).pc t = .load v := by
        simp only [Sys.step, hpc, Sys.thread, hm, Mutex.lock, Sys.goto, Function.update_self]
      have hm' : (s.step data n (.thread t)).mutex = .notRecoverable := by
        simp only [Sys.step, hpc, Sys.thread, hm, Mutex.lock, Sys.goto]
      have howns := h t (by rw [hpc']; trivial)
      rw [hm'] at howns
      exact howns rfl
    · cases hlost

omit [Zero R] [Add R] [Mul R] in
theorem Sys.Inv.not_lost {s : Sys R} (h : s.Inv False) (e : Ev) : lostLock s e = false := by
  cases e with
  | main => rfl
  | thread t =>
    simp only [lostLock]
    split
    · next hm => exact (h.sane hm).elim
    · rfl

/-- Every update of the sum is made by the owner of the mutex exactly in the runs in which no
thread calls its second lock when the mutex is not recoverable any more. It stays recoverable if
no second lock is the one that finds the owner dead. -/
theorem sum_updates_owned_iff (data : DotData R) (n : Nat) (es : List Ev) :
    ((∀ pre, pre <+: es → (run (Sys.step data n) Sys.start pre).Owned) ↔
      saw lostLock (Sys.step data n) Sys.start es = false) ∧
    (saw findsDead (Sys.step data n) Sys.start es = false →
      saw lostLock (Sys.step data n) Sys.start es = false) := by
  constructor
  · apply every_state_iff (Sys.Inv True) Sys.Owned
    · intro s h
      exact h.owned
    · intro s e hlost h
      exact h.step data n e hlost fun _ => trivial
    · intro s e hlost _
      exact lostLock_breaks data n s e hlost
    · exact start_inv True
  · intro hdead
    cases hlost : saw lostLock (Sys.step data n) Sys.start es with
    | false => rfl
    | true =>
      obtain ⟨pre, e, post, rfl, -, he⟩ := exists_first_of_saw hlost
      rw [saw_append, Bool.or_eq_false_iff] at hdead
      have hinv : (run (Sys.step data n) Sys.start pre).Inv False := by
        refine run_invariant_of (Sys.Inv False) ?_ (start_inv False) hdead.1
        intro s e hnot h
        exact h.step data n e (h.not_lost e) fun hd => by rw [hnot] at hd; cases hd
      rw [hinv.not_lost e] at he
      cases he

/-- The first two threads have passed their first lock when the third one dies. The first one
finds it dead at its second lock and unlocks, and the second one adds to the sum without owning
the mutex. -/
theorem second_lock_lost :
    ∃ es, (run (Sys.step ⟨fun _ => 1, fun _ => 1, 1⟩ 4) (Sys.start : Sys Int) es).pc 1 = .load 1 ∧
      ¬ (run (Sys.step ⟨fun _ => 1, fun _ => 1, 1⟩ 4) (Sys.start : Sys Int) es).Owned := by
  refine ⟨List.replicate 4 .main ++ List.replicate 4 (.thread 0) ++ List.replicate 3 (.thread 1) ++
    List.replicate 7 (.thread 2) ++ List.replicate 4 (.thread 0) ++ [.thread 1], by decide, ?_⟩
  intro h
  exact h 1 trivial (by decide)

end

end SysPrg.Dotprod
