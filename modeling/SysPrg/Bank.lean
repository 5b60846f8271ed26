import Mathlib.Logic.Function.Basic
import SysPrg.Run

namespace SysPrg.Bank
set_option autoImplicit true

/-- The threads. `deposit_bad` and `withdraw_bad` are `deposit` and `withdraw` without the lock. -/
inductive Thread where
  | deposit
  | withdraw
  deriving DecidableEq, Repr

def Thread.other : Thread → Thread
  | .deposit => .withdraw
  | .withdraw => .deposit

def Thread.change : Thread → Int
  | .deposit => 1
  | .withdraw => -1

/-- Where a thread is in its loop, in the `i`-th turn. Between the two accesses to `balance` it has
the value in a register. -/
inductive Pc where
  | idle
  | loop (i : Nat)
  | lock (i : Nat)
  | load (i : Nat)
  | store (i : Nat) (reg : Int)
  | unlock (i : Nat)
  | returned
  deriving DecidableEq, Repr

inductive MainPc where
  | create (t : Thread)
  | join (t : Thread)
  | print
  | printed (balance : Int)
  deriving DecidableEq, Repr

structure Sys where
  balance : Int
  lock : Option Thread
  pc : Thread → Pc
  main : MainPc

inductive Ev where
  | main
  | thread (t : Thread)
  deriving DecidableEq, Repr

def Sys.start : Sys := ⟨0, none, fun _ => .idle, .create .deposit⟩

def Sys.goto (s : Sys) (t : Thread) (pc : Pc) : Sys := { s with pc := Function.update s.pc t pc }

/-- A step of a thread at `pc`, of the `bad` version or of the other one, with
`NUM_ITERATIONS = n`. -/
def Sys.thread (bad : Bool) (n : Nat) (s : Sys) (t : Thread) : Pc → Sys
  | .idle => s
  | .loop i => s.goto t (if i < n then (if bad then .load i else .lock i) else .returned)
  | .lock i =>
    match s.lock with
    | none => Sys.goto { s with lock := some t } t (.load i)
    | some _ => s
  | .load i => s.goto t (.store i s.balance)
  | .store i reg =>
    Sys.goto { s with balance := reg + t.change } t (if bad then .loop (i + 1) else .unlock i)
  | .unlock i => Sys.goto { s with lock := none } t (.loop (i + 1))
  | .returned => s

def Sys.mainStep (s : Sys) : Sys :=
  match s.main with
  | .create .deposit => { s.goto .deposit (.loop 0) with main := .create .withdraw }
  | .create .withdraw => { s.goto .withdraw (.loop 0) with main := .join .deposit }
  | .join .deposit => if s.pc .deposit = .returned then { s with main := .join .withdraw } else s
  | .join .withdraw => if s.pc .withdraw = .returned then { s with main := .print } else s
  | .print => { s with main := .printed s.balance }
  | .printed _ => s

def Sys.step (bad : Bool) (n : Nat) (s : Sys) : Ev → Sys
  | .main => s.mainStep
  | .thread t => s.thread bad n t (s.pc t)

def stores (t : Thread) (s : Sys) : Ev → Bool
  | .main => false
  | .thread u =>
    match s.pc u with
    | .store _ _ => u = t
    | _ => false

def Pc.stored (n : Nat) : Pc → Nat
  | .idle => 0
  | .loop i | .lock i | .load i | .store i _ => i
  | .unlock i => i + 1
  | .returned => n

def Pc.InRange (n : Nat) : Pc → Prop
  | .loop i => i ≤ n
  | .lock i | .load i | .store i _ | .unlock i => i < n
  | _ => True

/-- Which threads there are, for the place that `main` has got to. -/
def MainPc.Phase (pc : Thread → Pc) (balance : Int) : MainPc → Prop
  | .create .deposit => ∀ t, pc t = .idle
  | .create .withdraw => pc .deposit ≠ .idle ∧ pc .withdraw = .idle
  | .join .deposit => ∀ t, pc t ≠ .idle
  | .join .withdraw => pc .deposit = .returned ∧ pc .withdraw ≠ .idle
  | .print => ∀ t, pc t = .returned
  | .printed b => (∀ t, pc t = .returned) ∧ b = balance

structure Sys.Placed (n : Nat) (s : Sys) : Prop where
  range : ∀ t, (s.pc t).InRange n
  phase : s.main.Phase s.pc s.balance

theorem start_placed (n : Nat) : Sys.start.Placed n := ⟨fun _ => trivial, fun _ => rfl⟩

theorem MainPc.Phase.goto {m : MainPc} {pc : Thread → Pc} {x : Pc} (h : m.Phase pc b)
    (hidle : pc t ≠ .idle) (hret : pc t ≠ .returned) (hx : x ≠ .idle) (b' : Int) :
    m.Phase (Function.update pc t x) b' := by
  cases m with
  | create u =>
    cases u with
    | deposit => exact (hidle (h t)).elim
    | withdraw =>
      cases t with
      | deposit =>
        refine ⟨?_, h.2⟩
        rw [Function.update_self]
        exact hx
      | withdraw => exact (hidle h.2).elim
  | join u =>
    cases u with
    | deposit => exact (Function.forall_update_iff pc fun _ y => y ≠ .idle).2 ⟨hx, fun u _ => h u⟩
    | withdraw =>
      cases t with
      | deposit => exact (hret h.1).elim
      | withdraw =>
        refine ⟨h.1, ?_⟩
        rw [Function.update_self]
        exact hx
  | print => exact (hret (h t)).elim
  | printed b => exact (hret (h.1 t)).elim

section
variable {n : Nat} {s : Sys} {t : Thread}

theorem thread_moves (bad : Bool) (hr : (s.pc t).InRange n) : s.step bad n (.thread t) = s ∨
    s.pc t ≠ .idle ∧ s.pc t ≠ .returned ∧ ∃ b l x, x ≠ .idle ∧ x.InRange n ∧
      s.step bad n (.thread t) = ⟨b, l, Function.update s.pc t x, s.main⟩ := by
  simp only [Sys.step]
  cases hpc : s.pc t with
  | idle | returned => exact .inl rfl
  | loop i =>
    refine .inr ⟨fun hx => (by cases hx), fun hx => (by cases hx), _, _, _, ?_, ?_, rfl⟩
    · repeat' split
      all_goals exact fun hx => by cases hx
    · repeat' split
      · assumption
      · assumption
      · trivial
  | lock i =>
    rw [hpc] at hr
    simp only [Sys.thread]
    split
    · exact .inr ⟨fun hx => (by cases hx), fun hx => (by cases hx), _, _, .load i,
        fun hx => (by cases hx), hr, rfl⟩
    · exact .inl rfl
  | load i =>
    rw [hpc] at hr
    exact .inr ⟨fun hx => (by cases hx), fun hx => (by cases hx), _, _, .store i s.balance,
      fun hx => (by cases hx), hr, rfl⟩
  | store i reg =>
    rw [hpc] at hr
    refine .inr ⟨fun hx => (by cases hx), fun hx => (by cases hx), _, _, _, ?_, ?_, rfl⟩
    · split
      all_goals exact fun hx => by cases hx
    · split
      · exact hr
      · exact hr
  | unlock i =>
    rw [hpc] at hr
    exact .inr ⟨fun hx => (by cases hx), fun hx => (by cases hx), _, _, .loop (i + 1),
      fun hx => (by cases hx), hr, rfl⟩

theorem Sys.Placed.thread (h : s.Placed n) (bad : Bool) (t : Thread) :
    (s.step bad n (.thread t)).Placed n := by
  rcases thread_moves bad (h.range t) with hs | ⟨hidle, hret, b, l, x, hx, hrange, hs⟩
  · rw [hs]
    exact h
  · rw [hs]
    refine ⟨?_, h.phase.goto hidle hret hx b⟩
    exact (Function.forall_update_iff s.pc fun _ y => y.InRange n).2
      ⟨hrange, fun u _ => h.range u⟩

theorem Sys.Placed.create (h : s.Placed n) (u : Thread) (m : MainPc)
    (hm : m.Phase (Function.update s.pc u (.loop 0)) s.balance) :
    Sys.Placed n { s.goto u (.loop 0) with main := m } :=
  ⟨(Function.forall_update_iff s.pc fun _ y => y.InRange n).2
    ⟨Nat.zero_le n, fun u _ => h.range u⟩, hm⟩

theorem Sys.Placed.mainStep (h : s.Placed n) : s.mainStep.Placed n := by
  have hphase := h.phase
  cases hm : s.main with
  | create u =>
    rw [hm] at hphase
    cases u with
    | deposit =>
      simp only [Sys.mainStep, hm]
      exact h.create .deposit _ ⟨fun hx => (by cases hx), hphase .withdraw⟩
    | withdraw =>
      simp only [Sys.mainStep, hm]
      apply h.create .withdraw
      intro u
      cases u with
      | deposit => exact hphase.1
      | withdraw => exact fun hx => by cases hx
  | join u =>
    rw [hm] at hphase
    cases u with
    | deposit =>
      simp only [Sys.mainStep, hm]
      split
      · next hret => exact ⟨h.range, hret, hphase .withdraw⟩
      · exact h
    | withdraw =>
      simp only [Sys.mainStep, hm]
      split
      · next hret =>
        refine ⟨h.range, ?_⟩
        intro u
        cases u with
        | deposit => exact hphase.1
        | withdraw => exact hret
      · exact h
  | print =>
    rw [hm] at hphase
    simp only [Sys.mainStep, hm]
    exact ⟨h.range, hphase, rfl⟩
  | printed b =>
    simp only [Sys.mainStep, hm]
    exact h

theorem Sys.Placed.step (h : s.Placed n) (bad : Bool) (e : Ev) : (s.step bad n e).Placed n := by
  cases e with
  | main => exact h.mainStep
  | thread t => exact h.thread bad t

theorem thread_stored (bad : Bool) (hr : (s.pc t).InRange n) :
    ((s.step bad n (.thread t)).pc t).stored n =
      (s.pc t).stored n + (stores t s (.thread t)).toNat := by
  simp only [Sys.step, stores]
  cases hpc : s.pc t with
  | idle | returned => exact congrArg (Pc.stored n) hpc
  | loop i =>
    rw [hpc] at hr
    simp only [Sys.thread, Sys.goto, Function.update_self]
    split
    · split
      · rfl
      · rfl
    · next hlt => exact Nat.le_antisymm (Nat.not_lt.1 hlt) hr
  | lock i =>
    simp only [Sys.thread]
    split
    · simp only [Sys.goto, Function.update_self]
      rfl
    · exact congrArg (Pc.stored n) hpc
  | load i | unlock i =>
    simp only [Sys.thread, Sys.goto, Function.update_self]
    rfl
  | store i reg =>
    simp only [Sys.thread, Sys.goto, Function.update_self, decide_true, Bool.toNat_true]
    split
    · rfl
    · rfl

theorem main_keeps (h : s.Placed n) : s.mainStep.balance = s.balance ∧ s.mainStep.lock = s.lock ∧
    ∀ t, s.mainStep.pc t = s.pc t ∨ s.pc t = .idle ∧ s.mainStep.pc t = .loop 0 := by
  have hphase := h.phase
  have hcreate (u : Thread) (hu : s.pc u = .idle) (t : Thread) :
      Function.update s.pc u (.loop 0) t = s.pc t ∨
        s.pc t = .idle ∧ Function.update s.pc u (.loop 0) t = .loop 0 := by
    by_cases ht : t = u
    · rw [ht]
      exact .inr ⟨hu, Function.update_self ..⟩
    · exact .inl (Function.update_of_ne ht ..)
  unfold Sys.mainStep
  split
  · next hm =>
    rw [hm] at hphase
    exact ⟨rfl, rfl, hcreate .deposit (hphase .deposit)⟩
  · next hm =>
    rw [hm] at hphase
    exact ⟨rfl, rfl, hcreate .withdraw hphase.2⟩
  · split
    · exact ⟨rfl, rfl, fun _ => .inl rfl⟩
    · exact ⟨rfl, rfl, fun _ => .inl rfl⟩
  · split
    · exact ⟨rfl, rfl, fun _ => .inl rfl⟩
    · exact ⟨rfl, rfl, fun _ => .inl rfl⟩
  · exact ⟨rfl, rfl, fun _ => .inl rfl⟩
  · exact ⟨rfl, rfl, fun _ => .inl rfl⟩

theorem step_stored (h : s.Placed n) (bad : Bool) (t : Thread) (e : Ev) :
    ((s.step bad n e).pc t).stored n = (s.pc t).stored n + (stores t s e).toNat := by
  cases e with
  | main =>
    rcases (main_keeps h).2.2 t with hpc | ⟨hidle, hpc⟩
    · exact congrArg (Pc.stored n) hpc
    · rw [hidle]
      exact congrArg (Pc.stored n) hpc
  | thread u =>
    by_cases ht : t = u
    · subst ht
      exact thread_stored bad (h.range t)
    · have hpc : (s.step bad n (.thread u)).pc t = s.pc t := by
        rcases thread_moves bad (h.range u) with hs | ⟨-, -, b, l, x, -, -, hs⟩
        · rw [hs]
        · rw [hs]
          exact Function.update_of_ne ht ..
      have hnot : stores t s (.thread u) = false := by
        simp only [stores]
        split
        · exact decide_eq_false (fun hu => ht hu.symm)
        · rfl
      rw [hpc, hnot]
      rfl

theorem run_stored (bad : Bool) (n : Nat) (t : Thread) (es : List Ev) :
    ((run (Sys.step bad n) .start es).pc t).stored n =
      tally (stores t) (Sys.step bad n) .start es := by
  have hcount := run_tally (Sys.Placed n) (fun s => (s.pc t).stored n)
    (fun s e h => h.step bad e) (fun s e h => step_stored h bad t e) (start_placed n) es
  exact hcount.trans (Nat.zero_add _)

theorem Pc.stored_le {pc : Pc} (h : pc.InRange n) : pc.stored n ≤ n := by
  cases pc with
  | idle => exact Nat.zero_le n
  | loop i => exact h
  | lock i | load i | store i reg => exact Nat.le_of_lt h
  | unlock i => exact h
  | returned => exact Nat.le_refl n

end

def Pc.critical : Pc → Bool
  | .load _ | .store _ _ | .unlock _ => true
  | _ => false

def Sys.net (n : Nat) (s : Sys) : Int := (s.pc .deposit).stored n - (s.pc .withdraw).stored n

/-- With the lock, a value in a register is the one in `balance`. -/
structure Sys.Locked (n : Nat) (s : Sys) : Prop extends s.Placed n where
  balance : s.balance = s.net n
  lock : ∀ t, s.lock = some t ↔ (s.pc t).critical = true
  reg : ∀ t i r, s.pc t = .store i r → r = s.balance

theorem start_locked (n : Nat) : Sys.start.Locked n where
  toPlaced := start_placed n
  balance := rfl
  lock _ := ⟨fun h => (by cases h), fun h => (by cases h)⟩
  reg _ _ _ h := by cases h

section
variable {n : Nat} {s : Sys} {t : Thread}

theorem thread_net (h : s.Placed n) (bad : Bool) (t : Thread) :
    (s.step bad n (.thread t)).net n =
      s.net n + if stores t s (.thread t) then t.change else 0 := by
  have hd := step_stored h bad .deposit (.thread t)
  have hw := step_stored h bad .withdraw (.thread t)
  simp only [Sys.net, hd, hw, stores]
  cases s.pc t with
  | store i reg => cases t <;> simp only [Thread.change] <;> simp <;> omega
  | _ => simp

theorem main_net (h : s.Placed n) (bad : Bool) : (s.step bad n .main).net n = s.net n := by
  simp only [Sys.net, step_stored h bad _ .main]
  rfl

theorem Sys.Locked.move {x : Pc} (h : s.Locked n)
    (hp : Sys.Placed n ⟨b, l, Function.update s.pc t x, s.main⟩)
    (hb : b = Sys.net n ⟨b, l, Function.update s.pc t x, s.main⟩)
    (hl : l = some t ↔ x.critical = true)
    (hl' : ∀ u, u ≠ t → (l = some u ↔ (s.pc u).critical = true))
    (hr : ∀ i r, x = .store i r → r = b)
    (hr' : ∀ u, u ≠ t → (s.pc u).critical = true → b = s.balance) :
    Sys.Locked n ⟨b, l, Function.update s.pc t x, s.main⟩ where
  toPlaced := hp
  balance := hb
  lock := (Function.forall_update_iff s.pc fun u y => l = some u ↔ y.critical = true).2 ⟨hl, hl'⟩
  reg := by
    apply (Function.forall_update_iff s.pc fun _ y => ∀ i r, y = .store i r → r = b).2
    refine ⟨hr, ?_⟩
    intro u hu i r hpc
    exact (h.reg u i r hpc).trans (hr' u hu (hpc ▸ rfl)).symm

theorem Sys.Locked.thread (h : s.Locked n) (t : Thread) :
    (s.step false n (.thread t)).Locked n := by
  have hp := h.toPlaced.thread false t
  have hnet := thread_net h.toPlaced false t
  have hlock := h.lock t
  simp only [Sys.step, stores] at hp hnet ⊢
  cases hpc : s.pc t with
  | idle | returned => exact h
  | loop i =>
    simp only [hpc, Bool.false_eq_true, if_false, Int.add_zero] at hp hnet hlock
    apply h.move hp (h.balance.trans hnet.symm) _ (fun u _ => h.lock u) _ (fun _ _ _ => rfl)
    · rw [hlock]
      split
      · rfl
      · rfl
    · intro j r hx
      split at hx
      · cases hx
      · cases hx
  | lock i =>
    simp only [hpc, Bool.false_eq_true, if_false, Int.add_zero] at hp hnet
    simp only [Sys.thread] at hp hnet ⊢
    cases hl : s.lock with
    | none =>
      simp only [hl] at hp hnet
      apply h.move hp (h.balance.trans hnet.symm) ⟨fun _ => rfl, fun _ => rfl⟩ _
        (fun _ _ hx => (by cases hx)) (fun _ _ _ => rfl)
      intro u hu
      rw [← h.lock u, hl]
      exact ⟨fun hx => (hu (Option.some.inj hx).symm).elim, fun hx => (by cases hx)⟩
    | some u => exact h
  | load i =>
    simp only [hpc, Bool.false_eq_true, if_false, Int.add_zero] at hp hnet hlock
    apply h.move hp (h.balance.trans hnet.symm) hlock (fun u _ => h.lock u) _ (fun _ _ _ => rfl)
    intro j r hx
    cases hx
    rfl
  | store i reg =>
    have hreg := h.reg t i reg hpc
    simp only [hpc, decide_true, if_true] at hp hnet hlock
    apply h.move hp _ hlock (fun u _ => h.lock u) (fun _ _ hx => (by cases hx))
    · -- No other thread is in its critical section.
      intro u hu hcrit
      have htu := ((h.lock u).2 hcrit).symm.trans (hlock.2 rfl)
      exact (hu (Option.some.inj htu)).elim
    · rw [hreg, h.balance]
      exact hnet.symm
  | unlock i =>
    simp only [hpc, Bool.false_eq_true, if_false, Int.add_zero] at hp hnet hlock
    apply h.move hp (h.balance.trans hnet.symm) ⟨fun hx => (by cases hx), fun hx => (by cases hx)⟩ _
      (fun _ _ hx => (by cases hx)) (fun _ _ _ => rfl)
    intro u hu
    rw [← h.lock u, hlock.2 rfl]
    exact ⟨fun hx => (by cases hx), fun hx => (hu (Option.some.inj hx).symm).elim⟩

theorem Sys.Locked.mainStep (h : s.Locked n) : s.mainStep.Locked n := by
  obtain ⟨hbalance, hlock, hpc⟩ := main_keeps h.toPlaced
  refine ⟨h.toPlaced.mainStep, ?_, ?_, ?_⟩
  · rw [hbalance, h.balance]
    exact (main_net h.toPlaced false).symm
  · intro t
    rw [hlock, h.lock t]
    rcases hpc t with ht | ⟨hidle, ht⟩
    · rw [ht]
    · rw [hidle, ht]
      rfl
  · intro t i r hr
    rw [hbalance]
    rcases hpc t with ht | ⟨-, ht⟩
    · exact h.reg t i r (ht ▸ hr)
    · rw [ht] at hr
      cases hr

theorem Sys.Locked.step (h : s.Locked n) (e : Ev) : (s.step false n e).Locked n := by
  cases e with
  | main => exact h.mainStep
  | thread t => exact h.thread t

end

def Pc.left (n : Nat) : Pc → Nat
  | .idle => 5 * n + 2
  | .loop i => 5 * (n - i) + 1
  | .lock i => 5 * (n - i)
  | .load i => 5 * (n - i) - 1
  | .store i _ => 5 * (n - i) - 2
  | .unlock i => 5 * (n - i) - 3
  | .returned => 0

def MainPc.left : MainPc → Nat
  | .create .deposit => 5
  | .create .withdraw => 4
  | .join .deposit => 3
  | .join .withdraw => 2
  | .print => 1
  | .printed _ => 0

def Sys.left (n : Nat) (s : Sys) : Nat :=
  (s.pc .deposit).left n + (s.pc .withdraw).left n + s.main.left

section
variable {n : Nat} {s : Sys} {t : Thread}

theorem left_goto {x : Pc} {m : MainPc} (hx : x.left n < (s.pc t).left n)
    (hm : m.left ≤ s.main.left) (b : Int) (l : Option Thread) :
    Sys.left n ⟨b, l, Function.update s.pc t x, m⟩ < s.left n := by
  cases t with
  | deposit =>
    have hother : Function.update s.pc .deposit x .withdraw = s.pc .withdraw := rfl
    simp only [Sys.left, Function.update_self, hother]
    omega
  | withdraw =>
    have hother : Function.update s.pc .withdraw x .deposit = s.pc .deposit := rfl
    simp only [Sys.left, Function.update_self, hother]
    omega

theorem thread_left (hr : (s.pc t).InRange n) (hidle : s.pc t ≠ .idle)
    (hret : s.pc t ≠ .returned) (hlock : ∀ i, s.pc t = .lock i → s.lock = none) :
    (s.step false n (.thread t)).left n < s.left n := by
  simp only [Sys.step]
  cases hpc : s.pc t with
  | idle => exact (hidle hpc).elim
  | returned => exact (hret hpc).elim
  | loop i =>
    rw [hpc] at hr
    apply left_goto _ (Nat.le_refl _)
    rw [hpc]
    simp only [Pc.InRange] at hr
    split
    · simp only [Bool.false_eq_true, if_false, Pc.left]
      omega
    · simp only [Pc.left]
      omega
  | lock i =>
    rw [hpc] at hr
    simp only [Sys.thread, hlock i hpc]
    apply left_goto _ (Nat.le_refl _)
    rw [hpc]
    simp only [Pc.left, Pc.InRange] at hr ⊢
    omega
  | load i | store i reg | unlock i =>
    rw [hpc] at hr
    apply left_goto _ (Nat.le_refl _)
    rw [hpc]
    simp only [Pc.left, Pc.InRange, Bool.false_eq_true, if_false] at hr ⊢
    omega

theorem Sys.Locked.thread_progress (h : s.Locked n) (hidle : s.pc t ≠ .idle)
    (hret : s.pc t ≠ .returned) :
    ∃ u, (s.step false n (.thread u)).left n < s.left n := by
  cases hl : s.lock with
  | none => exact ⟨t, thread_left (h.range t) hidle hret (fun _ _ => hl)⟩
  | some u =>
    have hcrit := (h.lock u).1 hl
    refine ⟨u, thread_left (h.range u) ?_ ?_ ?_⟩
    · intro hu
      rw [hu] at hcrit
      cases hcrit
    · intro hu
      rw [hu] at hcrit
      cases hcrit
    · intro i hu
      rw [hu] at hcrit
      cases hcrit

/-- There is no deadlock: both threads can be brought to their end, and then `main`. -/
theorem Sys.Locked.progress (h : s.Locked n) : (∃ b, s.main = .printed b) ∨
    ∃ e, (s.step false n e).Locked n ∧ (s.step false n e).left n < s.left n := by
  have hphase := h.phase
  have hthread (t : Thread) (hidle : s.pc t ≠ .idle) (hret : s.pc t ≠ .returned) :
      ∃ e, (s.step false n e).Locked n ∧ (s.step false n e).left n < s.left n := by
    obtain ⟨u, hu⟩ := h.thread_progress hidle hret
    exact ⟨.thread u, h.thread u, hu⟩
  have hmain (hlt : s.mainStep.left n < s.left n) :
      ∃ e, (s.step false n e).Locked n ∧ (s.step false n e).left n < s.left n :=
    ⟨.main, h.mainStep, hlt⟩
  cases hm : s.main with
  | create t =>
    rw [hm] at hphase
    right
    apply hmain
    have hstart : (Pc.loop 0).left n < Pc.idle.left n := Nat.lt_succ_self _
    cases t with
    | deposit =>
      simp only [Sys.mainStep, hm]
      exact left_goto (hphase .deposit ▸ hstart) (hm ▸ Nat.le_succ 4) _ _
    | withdraw =>
      simp only [Sys.mainStep, hm]
      exact left_goto (hphase.2 ▸ hstart) (hm ▸ Nat.le_succ 3) _ _
  | join t =>
    rw [hm] at hphase
    right
    cases t with
    | deposit =>
      by_cases hret : s.pc .deposit = .returned
      · apply hmain
        simp only [Sys.mainStep, hm, if_pos hret, Sys.left, MainPc.left]
        omega
      · exact hthread .deposit (hphase .deposit) hret
    | withdraw =>
      by_cases hret : s.pc .withdraw = .returned
      · apply hmain
        simp only [Sys.mainStep, hm, if_pos hret, Sys.left, MainPc.left]
        omega
      · exact hthread .withdraw hphase.2 hret
  | print =>
    right
    apply hmain
    simp only [Sys.mainStep, hm, Sys.left, MainPc.left]
    omega
  | printed b => exact .inl ⟨b, rfl⟩

theorem Sys.Placed.printed (h : s.Placed n) (hm : s.main = .printed b) :
    b = s.balance ∧ ∀ t, (s.pc t).stored n = n := by
  have hphase := h.phase
  rw [hm] at hphase
  refine ⟨hphase.2, ?_⟩
  intro t
  rw [hphase.1 t]
  rfl

end

/-- No update is lost. -/
theorem balance_exact (n : Nat) (es : List Ev) :
    (run (Sys.step false n) .start es).balance =
      tally (stores .deposit) (Sys.step false n) .start es -
        tally (stores .withdraw) (Sys.step false n) .start es ∧
    -n ≤ (run (Sys.step false n) .start es).balance ∧
    (run (Sys.step false n) .start es).balance ≤ n ∧
    (∀ b, (run (Sys.step false n) .start es).main = .printed b → b = Sys.start.balance) ∧
    ∃ es', (run (Sys.step false n) .start (es ++ es')).main = .printed Sys.start.balance := by
  have hrun (es : List Ev) : (run (Sys.step false n) .start es).Locked n :=
    run_invariant (Sys.Locked n) (fun _ e h => h.step e) (start_locked n) es
  have hfinal (es : List Ev) (b : Int) (hm : (run (Sys.step false n) .start es).main = .printed b) :
      b = Sys.start.balance := by
    obtain ⟨hb, hall⟩ := (hrun es).printed hm
    rw [hb, (hrun es).balance, Sys.net, hall, hall]
    exact Int.sub_self _
  have hbalance := (hrun es).balance
  have hd := Pc.stored_le ((hrun es).range .deposit)
  have hw := Pc.stored_le ((hrun es).range .withdraw)
  rw [Sys.net, run_stored, run_stored] at hbalance
  rw [run_stored] at hd hw
  refine ⟨hbalance, by omega, by omega, hfinal es, ?_⟩
  obtain ⟨es', -, b, hm⟩ := exists_run_of_progress (p := fun _ _ => false) (Sys.Locked n)
    (fun s => ∃ b, s.main = .printed b) (Sys.left n)
    (fun s h => h.progress.imp_right fun ⟨e, he⟩ => ⟨e, rfl, he⟩) (hrun es)
  rw [← run_append] at hm
  exact ⟨es', hfinal (es ++ es') b hm ▸ hm⟩

end SysPrg.Bank
