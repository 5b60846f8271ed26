import Mathlib.Algebra.BigOperators.Fin
import SysPrg.Run
import SysPrg.Threads

namespace SysPrg.Condvar
set_option autoImplicit true

/-- Where a thread is, in the `i`-th turn of the loop of `inc_count` or, from `watchLock` on, in
`watch_count`. `asleep` is inside `pthread_cond_wait`, which has given up the mutex, and `relock`
is on the way out of it. -/
inductive Pc where
  | idle
  | top (i : Nat)
  | lock (i : Nat)
  | load (i : Nat)
  | store (i : Nat) (reg : Nat)
  | check (i : Nat)
  | signal (i : Nat)
  | unlock (i : Nat)
  | exited
  | watchLock
  | test
  | asleep
  | relock
  | watchUnlock
  | watchExited
  deriving DecidableEq, Repr

inductive MainPc where
  | create (k : Nat)
  | join (k : Nat)
  | done
  deriving DecidableEq, Repr

/-- `NUM_THREADS = n + 1`: the last thread is the one that watches. -/
structure Sys (n : Nat) where
  count : Nat
  mutex : Option (Fin (n + 1))
  pc : Fin (n + 1) → Pc
  main : MainPc

/-- A step of `main` or of a thread, or a return of `pthread_cond_wait` without a signal. -/
inductive Ev (n : Nat) where
  | main
  | thread (t : Fin (n + 1))
  | wake
  deriving DecidableEq, Repr

def Sys.start (n : Nat) : Sys n := ⟨0, none, fun _ => .idle, .create 0⟩

def Sys.goto (s : Sys n) (t : Fin (n + 1)) (pc : Pc) : Sys n :=
  { s with pc := Function.update s.pc t pc }

def Sys.lock (s : Sys n) (t : Fin (n + 1)) (pc : Pc) : Sys n :=
  match s.mutex with
  | none => Sys.goto { s with mutex := some t } t pc
  | some _ => s

def Sys.unlock (s : Sys n) (t : Fin (n + 1)) (pc : Pc) : Sys n :=
  Sys.goto { s with mutex := none } t pc

def Sys.wake (s : Sys n) : Sys n :=
  if s.pc (Fin.last n) = .asleep then s.goto (Fin.last n) .relock else s

section
variable (tcount limit : Nat)

/-- A step of a thread, with `TCOUNT = tcount` and `COUNT_LIMIT = limit`. -/
def Sys.thread (s : Sys n) (t : Fin (n + 1)) : Pc → Sys n
  | .top i => s.goto t (if i < tcount then .lock i else .exited)
  | .lock i => s.lock t (.load i)
  | .load i => s.goto t (.store i s.count)
  | .store i reg => Sys.goto { s with count := reg + 1 } t (.check i)
  | .check i => s.goto t (if s.count = limit then .signal i else .unlock i)
  | .signal i => s.wake.goto t (.unlock i)
  | .unlock i => s.unlock t (.top (i + 1))
  | .watchLock => s.lock t .test
  | .test => if s.count < limit then s.unlock t .asleep else s.goto t .watchUnlock
  | .relock => s.lock t .test
  | .watchUnlock => s.unlock t .watchExited
  | .idle | .exited | .asleep | .watchExited => s

/-- `main` starts the workers, then the one that watches, and waits for all of them. -/
def Sys.mainStep (s : Sys n) : Sys n :=
  match s.main with
  | .create k =>
    if h : k < n + 1 then
      { s.goto ⟨k, h⟩ (if k < n then .top 0 else .watchLock) with main := .create (k + 1) }
    else { s with main := .join 0 }
  | .join k =>
    if h : k < n + 1 then
      if s.pc ⟨k, h⟩ = .exited ∨ s.pc ⟨k, h⟩ = .watchExited then { s with main := .join (k + 1) }
      else s
    else { s with main := .done }
  | .done => s

def Sys.step (s : Sys n) : Ev n → Sys n
  | .main => s.mainStep
  | .thread t => s.thread tcount limit t (s.pc t)
  | .wake => s.wake

end

def signals (s : Sys n) : Ev n → Bool
  | .thread t =>
    match s.pc t with
    | .signal _ => true
    | _ => false
  | _ => false

def Pc.inside : Pc → Bool
  | .load _ | .store _ _ | .check _ | .signal _ | .unlock _ | .test | .watchUnlock => true
  | .idle | .top _ | .lock _ | .exited | .watchLock | .asleep | .relock | .watchExited => false

def Pc.watches : Pc → Bool
  | .watchLock | .test | .asleep | .relock | .watchUnlock | .watchExited => true
  | _ => false

def Pc.works : Pc → Bool
  | .top _ | .lock _ | .load _ | .store _ _ | .check _ | .signal _ | .unlock _ | .exited => true
  | _ => false

def Pc.stored (tcount : Nat) : Pc → Nat
  | .top i | .lock i | .load i | .store i _ => i
  | .check i | .signal i | .unlock i => i + 1
  | .exited => tcount
  | .idle | .watchLock | .test | .asleep | .relock | .watchUnlock | .watchExited => 0

def Pc.Knows (tcount limit count : Nat) : Pc → Prop
  | .top i => i ≤ tcount
  | .lock i | .load i | .unlock i => i < tcount
  | .store i reg => i < tcount ∧ reg = count
  | .check i => i < tcount ∧ 0 < count
  | .signal i => i < tcount ∧ count = limit ∧ 0 < count
  | .watchUnlock | .watchExited => limit ≤ count
  | .idle | .exited | .watchLock | .test | .asleep | .relock => True

/-- The limit has been reached and the signal for it is still to come. -/
def Pc.pending (limit count : Nat) : Pc → Bool
  | .check _ => count = limit
  | .signal _ => true
  | _ => false

def Sys.pending (limit : Nat) (s : Sys n) : Bool :=
  decide (∃ t, (s.pc t).pending limit s.count = true)

def Pc.live : Pc → Bool
  | .idle | .exited | .watchExited => false
  | _ => true

/-- Which threads there are, for the place that `main` has got to. -/
def MainPc.Phase (pc : Fin (n + 1) → Pc) : MainPc → Prop
  | .create k => ∀ t : Fin (n + 1), pc t = .idle ↔ k ≤ t
  | .join k => ∀ t : Fin (n + 1), pc t ≠ .idle ∧ (t < k → pc t = .exited ∨ pc t = .watchExited)
  | .done => ∀ t : Fin (n + 1), pc t = .exited ∨ pc t = .watchExited

structure Sys.Inv (tcount limit : Nat) (s : Sys n) : Prop where
  held : HeldAt Pc.inside s.pc s.mutex
  watches : ∀ t, (s.pc t).watches = true → t = Fin.last n
  works : ∀ t, (s.pc t).works = true → t ≠ Fin.last n
  knows : ∀ t, (s.pc t).Knows tcount limit s.count
  count : s.count = ∑ t, (s.pc t).stored tcount
  asleep : s.pc (Fin.last n) = .asleep → s.count < limit ∨ s.pending limit = true
  phase : s.main.Phase s.pc

theorem start_inv (n tcount limit : Nat) : (Sys.start n).Inv tcount limit where
  held := fun _ => ⟨nofun, nofun⟩
  watches := nofun
  works := nofun
  knows := fun _ => trivial
  count := by
    refine (Finset.sum_eq_zero ?_).symm
    exact fun _ _ => rfl
  asleep := nofun
  phase := fun _ => ⟨fun _ => Nat.zero_le _, fun _ => rfl⟩

/-- A place that a thread comes to from another one, with the counter as it was. -/
structure Pc.Follows (tcount : Nat) (x pc : Pc) : Prop where
  live : pc.live = true
  started : x ≠ .idle
  watches : x.watches = pc.watches
  works : x.works = pc.works
  stored : x.stored tcount = pc.stored tcount

variable {s : Sys n} {t : Fin (n + 1)} {pc x : Pc}

theorem MainPc.Phase.update {m : MainPc} {pc : Fin (n + 1) → Pc} (h : m.Phase pc)
    (hl : (pc t).live = true) (hx : x ≠ .idle) : m.Phase (Function.update pc t x) := by
  have hne : pc t ≠ .idle ∧ ¬ (pc t = .exited ∨ pc t = .watchExited) := by
    refine ⟨?_, ?_⟩
    · intro he
      rw [he] at hl
      cases hl
    · rintro (he | he) <;>
      · rw [he] at hl
        cases hl
  cases m with
  | create k =>
    refine (Function.forall_update_iff pc fun u y => y = .idle ↔ k ≤ u).2 ⟨?_, fun u _ => h u⟩
    exact ⟨fun he => (hx he).elim, fun hk => (hne.1 ((h t).2 hk)).elim⟩
  | join k =>
    refine (Function.forall_update_iff pc fun u y =>
      y ≠ .idle ∧ (u < k → y = .exited ∨ y = .watchExited)).2 ⟨⟨hx, ?_⟩, fun u _ => h u⟩
    exact fun hk => (hne.2 ((h t).2 hk)).elim
  | done => exact (hne.2 (h t)).elim

theorem pending_iff : s.pending limit = true ↔ ∃ t, (s.pc t).pending limit s.count = true :=
  decide_eq_true_iff

theorem Pc.inside_of_pending (h : pc.pending limit count = true) : pc.inside = true := by
  cases pc with
  | check j | signal j => rfl
  | _ => cases h

theorem Sys.Inv.move (h : s.Inv tcount limit) (hpc : s.pc t = pc) (hf : x.Follows tcount pc)
    {o : Option (Fin (n + 1))} (hheld : HeldAt Pc.inside (Function.update s.pc t x) o)
    (hknows : x.Knows tcount limit s.count) (hasleep : x = .asleep → s.count < limit)
    (hpend : s.pc (Fin.last n) = .asleep → pc.pending limit s.count = true →
      x.pending limit s.count = true) :
    Sys.Inv tcount limit { s with mutex := o, pc := Function.update s.pc t x } := by
  subst hpc
  refine ⟨hheld, ?_, ?_, ?_, ?_, ?_, h.phase.update hf.live hf.started⟩
  · exact (Function.forall_update_iff s.pc fun u y => y.watches = true → u = Fin.last n).2
      ⟨hf.watches ▸ h.watches t, fun u _ => h.watches u⟩
  · exact (Function.forall_update_iff s.pc fun u y => y.works = true → u ≠ Fin.last n).2
      ⟨hf.works ▸ h.works t, fun u _ => h.works u⟩
  · exact (Function.forall_update_iff s.pc fun _ y => y.Knows tcount limit s.count).2
      ⟨hknows, fun u _ => h.knows u⟩
  · have hsum := sum_update (Pc.stored tcount) s.pc t x
    have hcount := h.count
    have hst := hf.stored
    simp only
    omega
  · intro hlast
    simp only at hlast ⊢
    by_cases ht : t = Fin.last n
    · subst ht
      rw [Function.update_self] at hlast
      exact .inl (hasleep hlast)
    · rw [Function.update_of_ne (Ne.symm ht)] at hlast
      refine (h.asleep hlast).imp_right ?_
      rw [pending_iff, pending_iff]
      rintro ⟨u, hu⟩
      refine ⟨u, ?_⟩
      simp only
      by_cases hut : u = t
      · subst hut
        rw [Function.update_self]
        exact hpend hlast hu
      · rw [Function.update_of_ne hut]
        exact hu

theorem Sys.Inv.goto (h : s.Inv tcount limit) (hpc : s.pc t = pc) (hf : x.Follows tcount pc)
    (hin : x.inside = pc.inside) (hknows : x.Knows tcount limit s.count) (hasleep : x ≠ .asleep)
    (hpend : s.pc (Fin.last n) = .asleep → pc.pending limit s.count = true →
      x.pending limit s.count = true) : (s.goto t x).Inv tcount limit :=
  h.move hpc hf (h.held.stay (hpc ▸ hin)) hknows (fun he => (hasleep he).elim) hpend

theorem Sys.Inv.lock (h : s.Inv tcount limit) (hpc : s.pc t = pc) (hf : x.Follows tcount pc)
    (hin : x.inside = true) (hknows : x.Knows tcount limit s.count)
    (hpend : pc.pending limit s.count = false) : (s.lock t x).Inv tcount limit := by
  unfold Sys.lock
  cases hm : s.mutex with
  | none =>
    refine h.move hpc hf ((hm ▸ h.held).enter hin) hknows ?_ ?_
    · rintro rfl
      cases hin
    · rw [hpend]
      nofun
  | some u => exact h

theorem Sys.Inv.unlock (h : s.Inv tcount limit) (hpc : s.pc t = pc) (hf : x.Follows tcount pc)
    (hin : pc.inside = true) (hout : x.inside = false) (hknows : x.Knows tcount limit s.count)
    (hasleep : x = .asleep → s.count < limit) (hpend : pc.pending limit s.count = false) :
    (s.unlock t x).Inv tcount limit := by
  have hm : s.mutex = some t := (h.held t).1 (hpc ▸ hin)
  refine h.move hpc hf ((hm ▸ h.held).leave hout) hknows hasleep ?_
  rw [hpend]
  nofun

theorem Sys.Inv.wake (h : s.Inv tcount limit) : s.wake.Inv tcount limit := by
  unfold Sys.wake
  split
  · next ha => exact h.goto ha ⟨rfl, nofun, rfl, rfl, rfl⟩ rfl trivial nofun nofun
  · exact h

theorem wake_not_asleep (s : Sys n) : s.wake.pc (Fin.last n) ≠ .asleep := by
  unfold Sys.wake
  split
  · simp only [Sys.goto, Function.update_self]
    nofun
  · next ha => exact ha

theorem wake_pc_other (s : Sys n) (ht : t ≠ Fin.last n) : s.wake.pc t = s.pc t := by
  unfold Sys.wake
  split
  · exact Function.update_of_ne ht _ _
  · rfl

theorem wake_count (s : Sys n) : s.wake.count = s.count := by
  unfold Sys.wake
  split <;> rfl

/-- The increment itself. Nobody else is at a place that has looked at the counter, other than to
find it large enough. -/
theorem Sys.Inv.store (h : s.Inv tcount limit) (hpc : s.pc t = .store i reg) :
    Sys.Inv tcount limit
      { s with count := reg + 1, pc := Function.update s.pc t (.check i) } := by
  have hin : (s.pc t).inside = true := by rw [hpc]; rfl
  have ht : t ≠ Fin.last n := h.works t (by rw [hpc]; rfl)
  have hknows := h.knows t
  rw [hpc] at hknows
  obtain ⟨hi, rfl⟩ := hknows
  refine ⟨h.held.stay (by rw [hpc]; rfl), ?_, ?_, ?_, ?_, ?_,
    h.phase.update (by rw [hpc]; rfl) nofun⟩
  · exact (Function.forall_update_iff s.pc fun u y => y.watches = true → u = Fin.last n).2
      ⟨nofun, fun u _ => h.watches u⟩
  · exact (Function.forall_update_iff s.pc fun u y => y.works = true → u ≠ Fin.last n).2
      ⟨fun _ => ht, fun u _ => h.works u⟩
  · refine (Function.forall_update_iff s.pc fun _ y => y.Knows tcount limit (s.count + 1)).2
      ⟨⟨hi, Nat.succ_pos _⟩, ?_⟩
    intro u hu
    have hk := h.knows u
    have hout : (s.pc u).inside = false :=
      Bool.eq_false_iff.2 fun hin' => hu (h.held.alone hin' hin)
    cases hc : s.pc u with
    | watchExited =>
      rw [hc] at hk
      exact Nat.le_succ_of_le hk
    | top j | lock j | idle | exited | watchLock | asleep | relock =>
      rw [hc] at hk
      exact hk
    | load j | store j r | check j | signal j | unlock j | test | watchUnlock =>
      rw [hc] at hout
      cases hout
  · have hsum := sum_update (Pc.stored tcount) s.pc t (.check i)
    have hcount := h.count
    have hold : (s.pc t).stored tcount = i := by rw [hpc]; rfl
    have hnew : (Pc.check i).stored tcount = i + 1 := rfl
    simp only
    omega
  · intro hlast
    simp only at hlast
    rw [Function.update_of_ne (Ne.symm ht)] at hlast
    by_cases hlim : s.count + 1 = limit
    · refine .inr (pending_iff.2 ⟨t, ?_⟩)
      simp only [Function.update_self, Pc.pending, hlim, decide_true]
    · rcases h.asleep hlast with hlt | hp
      · exact .inl (Nat.lt_of_le_of_ne hlt hlim)
      · obtain ⟨u, hu⟩ := pending_iff.1 hp
        rw [h.held.alone (Pc.inside_of_pending hu) hin, hpc] at hu
        cases hu

theorem Sys.Inv.thread (h : s.Inv tcount limit) (t : Fin (n + 1)) :
    (s.thread tcount limit t (s.pc t)).Inv tcount limit := by
  have hknows := h.knows t
  cases hpc : s.pc t with
  | idle | exited | asleep | watchExited => exact h
  | top i =>
    rw [hpc] at hknows
    simp only [Sys.thread]
    split
    · next hlt => exact h.goto hpc ⟨rfl, nofun, rfl, rfl, rfl⟩ rfl hlt nofun nofun
    · next hge =>
      have he : tcount = i := Nat.le_antisymm (Nat.not_lt.1 hge) hknows
      exact h.goto hpc ⟨rfl, nofun, rfl, rfl, he⟩ rfl trivial nofun nofun
  | lock i =>
    rw [hpc] at hknows
    exact h.lock hpc ⟨rfl, nofun, rfl, rfl, rfl⟩ rfl hknows rfl
  | load i =>
    rw [hpc] at hknows
    exact h.goto hpc ⟨rfl, nofun, rfl, rfl, rfl⟩ rfl ⟨hknows, rfl⟩ nofun nofun
  | store i reg => exact h.store hpc
  | check i =>
    rw [hpc] at hknows
    simp only [Sys.thread]
    split
    · next he =>
      exact h.goto hpc ⟨rfl, nofun, rfl, rfl, rfl⟩ rfl ⟨hknows.1, he, hknows.2⟩ nofun
        (fun _ _ => rfl)
    · next hne =>
      exact h.goto hpc ⟨rfl, nofun, rfl, rfl, rfl⟩ rfl hknows.1 nofun
        (fun _ hp => (hne (of_decide_eq_true hp)).elim)
  | signal i =>
    rw [hpc] at hknows
    have ht : t ≠ Fin.last n := h.works t (by rw [hpc]; rfl)
    exact h.wake.goto ((wake_pc_other s ht).trans hpc) ⟨rfl, nofun, rfl, rfl, rfl⟩ rfl hknows.1
      nofun (fun ha => (wake_not_asleep s ha).elim)
  | unlock i =>
    rw [hpc] at hknows
    exact h.unlock hpc ⟨rfl, nofun, rfl, rfl, rfl⟩ rfl rfl hknows nofun rfl
  | watchLock => exact h.lock hpc ⟨rfl, nofun, rfl, rfl, rfl⟩ rfl trivial rfl
  | test =>
    simp only [Sys.thread]
    split
    · next hlt =>
      exact h.unlock hpc ⟨rfl, nofun, rfl, rfl, rfl⟩ rfl rfl trivial (fun _ => hlt) rfl
    · next hge => exact h.goto hpc ⟨rfl, nofun, rfl, rfl, rfl⟩ rfl (Nat.not_lt.1 hge) nofun nofun
  | relock => exact h.lock hpc ⟨rfl, nofun, rfl, rfl, rfl⟩ rfl trivial rfl
  | watchUnlock =>
    rw [hpc] at hknows
    exact h.unlock hpc ⟨rfl, nofun, rfl, rfl, rfl⟩ rfl rfl hknows nofun rfl

theorem Sys.Inv.setMain (h : s.Inv tcount limit) {m : MainPc} (hm : m.Phase s.pc) :
    Sys.Inv tcount limit { s with main := m } :=
  ⟨h.held, h.watches, h.works, h.knows, h.count, h.asleep, hm⟩

theorem Sys.Inv.create (h : s.Inv tcount limit) (hm : s.main = .create k) (hk : k < n + 1) :
    Sys.Inv tcount limit
      { s.goto ⟨k, hk⟩ (if k < n then .top 0 else .watchLock) with main := .create (k + 1) } := by
  have hphase := h.phase
  rw [hm] at hphase
  have hidle : s.pc ⟨k, hk⟩ = .idle := (hphase _).2 (Nat.le_refl k)
  have hlast : k < n ↔ (⟨k, hk⟩ : Fin (n + 1)) ≠ Fin.last n := by
    rw [Ne, Fin.ext_iff, Fin.val_last]
    simp only
    omega
  refine ⟨h.held.stay ?_, ?_, ?_, ?_, ?_, ?_, ?_⟩
  · rw [hidle]
    split <;> rfl
  · refine (Function.forall_update_iff s.pc fun u y => y.watches = true → u = Fin.last n).2
      ⟨?_, fun u _ => h.watches u⟩
    split
    · nofun
    · next hn => exact fun _ => not_not.1 (mt hlast.2 hn)
  · refine (Function.forall_update_iff s.pc fun u y => y.works = true → u ≠ Fin.last n).2
      ⟨?_, fun u _ => h.works u⟩
    split
    · next hn => exact fun _ => hlast.1 hn
    · nofun
  · refine (Function.forall_update_iff s.pc fun _ y => y.Knows tcount limit s.count).2
      ⟨?_, fun u _ => h.knows u⟩
    split
    · exact Nat.zero_le tcount
    · trivial
  · have hsum := sum_update (Pc.stored tcount) s.pc ⟨k, hk⟩ (if k < n then .top 0 else .watchLock)
    have hold : (s.pc ⟨k, hk⟩).stored tcount = 0 := by rw [hidle]; rfl
    have hnew : (if k < n then Pc.top 0 else Pc.watchLock).stored tcount = 0 := by split <;> rfl
    have hcount := h.count
    simp only [Sys.goto]
    omega
  · intro hasleep
    simp only [Sys.goto] at hasleep
    by_cases ht : (⟨k, hk⟩ : Fin (n + 1)) = Fin.last n
    · rw [← ht, Function.update_self, if_neg fun hn => hlast.1 hn ht] at hasleep
      cases hasleep
    · rw [Function.update_of_ne (Ne.symm ht)] at hasleep
      refine (h.asleep hasleep).imp_right ?_
      rw [pending_iff, pending_iff]
      rintro ⟨u, hu⟩
      refine ⟨u, ?_⟩
      have hne : u ≠ ⟨k, hk⟩ := by
        rintro rfl
        rw [hidle] at hu
        cases hu
      simp only [Sys.goto, Function.update_of_ne hne]
      exact hu
  · refine (Function.forall_update_iff s.pc fun u y => y = .idle ↔ k + 1 ≤ u).2 ⟨?_, ?_⟩
    · simp only [Nat.not_succ_le_self, iff_false]
      split <;> nofun
    · intro u hu
      have hne : (u : Nat) ≠ k := fun he => hu (Fin.ext he)
      rw [hphase u]
      omega

theorem Sys.Inv.mainStep (h : s.Inv tcount limit) : s.mainStep.Inv tcount limit := by
  have hphase := h.phase
  unfold Sys.mainStep
  cases hm : s.main with
  | create k =>
    rw [hm] at hphase
    simp only
    split
    · next hk => exact h.create hm hk
    · next hk =>
      refine h.setMain fun t => ⟨?_, nofun⟩
      intro hidle
      exact hk (Nat.lt_of_le_of_lt ((hphase t).1 hidle) t.isLt)
  | join k =>
    rw [hm] at hphase
    simp only
    split
    · next hk =>
      split
      · next hex =>
        refine h.setMain fun t => ⟨(hphase t).1, ?_⟩
        intro ht
        rcases Nat.lt_succ_iff_lt_or_eq.1 ht with hlt | heq
        · exact (hphase t).2 hlt
        · have he : t = ⟨k, hk⟩ := Fin.ext heq
          rw [he]
          exact hex
      · exact h
    · next hk => exact h.setMain fun t => (hphase t).2 (Nat.lt_of_lt_of_le t.isLt (Nat.not_lt.1 hk))
  | done => exact h

theorem Sys.Inv.step (h : s.Inv tcount limit) (e : Ev n) :
    (s.step tcount limit e).Inv tcount limit := by
  cases e with
  | main => exact h.mainStep
  | thread t => exact h.thread t
  | wake => exact h.wake

theorem inv_run (n tcount limit : Nat) (es : List (Ev n)) :
    (run (Sys.step tcount limit) (Sys.start n) es).Inv tcount limit :=
  run_invariant (Sys.Inv tcount limit) (fun _ e hs => hs.step e) (start_inv n tcount limit) es

/-- Whether the signal has been sent, as far as the state tells. -/
def Sys.signalled (limit : Nat) (s : Sys n) : Bool :=
  decide (0 < limit ∧ limit ≤ s.count) && !s.pending limit

theorem pending_update (m : MainPc) (o : Option (Fin (n + 1)))
    (hx : x.pending limit s.count = (s.pc t).pending limit s.count) :
    Sys.pending limit ⟨s.count, o, Function.update s.pc t x, m⟩ = s.pending limit := by
  have hpc : ∀ u, (Function.update s.pc t x u).pending limit s.count =
      (s.pc u).pending limit s.count := by
    refine (Function.forall_update_iff s.pc fun u y => y.pending limit s.count =
      (s.pc u).pending limit s.count).2 ⟨hx, fun _ _ => rfl⟩
  simp only [Sys.pending, hpc]

theorem signalled_update (m : MainPc) (o : Option (Fin (n + 1)))
    (hx : x.pending limit s.count = (s.pc t).pending limit s.count) :
    Sys.signalled limit ⟨s.count, o, Function.update s.pc t x, m⟩ = s.signalled limit := by
  unfold Sys.signalled
  rw [pending_update m o hx]

theorem Sys.Inv.pending_eq (h : s.Inv tcount limit) (hin : (s.pc t).inside = true) :
    s.pending limit = (s.pc t).pending limit s.count := by
  rw [Bool.eq_iff_iff, pending_iff]
  constructor
  · rintro ⟨u, hu⟩
    rwa [← h.held.alone (Pc.inside_of_pending hu) hin]
  · exact fun ht => ⟨t, ht⟩

theorem wake_signalled (s : Sys n) (limit : Nat) :
    s.wake.signalled limit = s.signalled limit := by
  unfold Sys.wake
  split
  · next ha => exact signalled_update _ _ (by rw [ha]; rfl)
  · rfl

theorem lock_signalled (hpc : s.pc t = pc) (hpend : pc.pending limit s.count = false)
    (hx : x.pending limit s.count = false) :
    (s.lock t x).signalled limit = s.signalled limit := by
  unfold Sys.lock
  cases s.mutex with
  | none => exact signalled_update _ _ (by rw [hpc, hx, hpend])
  | some u => rfl

theorem signalled_thread (h : s.Inv tcount limit) (t : Fin (n + 1)) :
    ((s.step tcount limit (.thread t)).signalled limit).toNat =
      (s.signalled limit).toNat + (signals s (.thread t)).toNat := by
  have hknows := h.knows t
  simp only [Sys.step, signals]
  cases hpc : s.pc t with
  | idle | exited | asleep | watchExited => rfl
  | top i =>
    refine congrArg Bool.toNat (signalled_update _ _ ?_)
    rw [hpc]
    split <;> rfl
  | lock i => exact congrArg Bool.toNat (lock_signalled hpc rfl rfl)
  | load i => exact congrArg Bool.toNat (signalled_update _ _ (by rw [hpc]; rfl))
  | store i reg =>
    have hin : (s.pc t).inside = true := by rw [hpc]; rfl
    have hnow : s.pending limit = false := by rw [h.pending_eq hin, hpc]; rfl
    have hin' : (Function.update s.pc t (.check i) t).inside = true := by
      rw [Function.update_self]
      rfl
    have hnext := (h.store hpc).pending_eq hin'
    rw [hpc] at hknows
    obtain ⟨_, rfl⟩ := hknows
    simp only [Function.update_self, Pc.pending] at hnext
    simp only [Sys.thread, Sys.goto, Sys.signalled, hnow, hnext, Bool.not_false, Bool.and_true,
      Bool.toNat_false, Nat.add_zero]
    by_cases he : s.count + 1 = limit
    · have hlt : ¬ limit ≤ s.count := by omega
      simp [he, hlt]
    · have hiff : limit ≤ s.count + 1 ↔ limit ≤ s.count := by omega
      simp [he, hiff]
  | check i =>
    refine congrArg Bool.toNat (signalled_update _ _ ?_)
    rw [hpc]
    split
    · next he => exact (decide_eq_true he).symm
    · next hne => exact (decide_eq_false hne).symm
  | signal i =>
    have hin : (s.pc t).inside = true := by rw [hpc]; rfl
    have hnow : s.pending limit = true := by rw [h.pending_eq hin, hpc]; rfl
    have hinv := h.thread t
    rw [hpc] at hknows hinv
    have hin' : (Function.update s.wake.pc t (.unlock i) t).inside = true := by
      rw [Function.update_self]
      rfl
    have hnext : (s.thread tcount limit t (.signal i)).pending limit = false := by
      refine (hinv.pending_eq hin').trans ?_
      simp only [Sys.thread, Sys.goto, Function.update_self, Pc.pending]
    have hcount : (s.thread tcount limit t (.signal i)).count = s.count := wake_count s
    obtain ⟨_, he, hpos⟩ := hknows
    unfold Sys.signalled
    rw [hnow, hnext, hcount, he, decide_eq_true ⟨he ▸ hpos, Nat.le_refl limit⟩]
    rfl
  | unlock i => exact congrArg Bool.toNat (signalled_update _ _ (by rw [hpc]; rfl))
  | watchLock => exact congrArg Bool.toNat (lock_signalled hpc rfl rfl)
  | test =>
    simp only [Sys.thread]
    split <;> exact congrArg Bool.toNat (signalled_update _ _ (by rw [hpc]; rfl))
  | relock => exact congrArg Bool.toNat (lock_signalled hpc rfl rfl)
  | watchUnlock => exact congrArg Bool.toNat (signalled_update _ _ (by rw [hpc]; rfl))

theorem mainStep_signalled (h : s.Inv tcount limit) :
    s.mainStep.signalled limit = s.signalled limit := by
  have hphase := h.phase
  unfold Sys.mainStep
  cases hm : s.main with
  | create k =>
    rw [hm] at hphase
    simp only
    split
    · next hk =>
      simp only [Sys.goto]
      refine signalled_update _ _ ?_
      rw [(hphase ⟨k, hk⟩).2 (Nat.le_refl k)]
      split <;> rfl
    · rfl
  | join k =>
    simp only
    split
    · split <;> rfl
    · rfl
  | done => rfl

theorem signalled_step (h : s.Inv tcount limit) (e : Ev n) :
    ((s.step tcount limit e).signalled limit).toNat =
      (s.signalled limit).toNat + (signals s e).toNat := by
  cases e with
  | main => exact congrArg Bool.toNat (mainStep_signalled h)
  | thread t => exact signalled_thread h t
  | wake => exact congrArg Bool.toNat (wake_signalled s limit)

theorem Sys.Inv.count_of_ended (h : s.Inv tcount limit)
    (hend : ∀ t, t ≠ Fin.last n → s.pc t = .exited)
    (hlast : (s.pc (Fin.last n)).stored tcount = 0) : s.count = n * tcount := by
  rw [h.count, Fin.sum_univ_castSucc, hlast, Nat.add_zero]
  have hall : ∀ t : Fin n, (s.pc t.castSucc).stored tcount = tcount := by
    intro t
    rw [hend _ (Fin.castSucc_ne_last t)]
    rfl
  simp only [hall, Finset.sum_const, Finset.card_univ, Fintype.card_fin, smul_eq_mul]

theorem Sys.Inv.worker_exited (h : s.Inv tcount limit) (ht : t ≠ Fin.last n)
    (hend : s.pc t = .exited ∨ s.pc t = .watchExited) : s.pc t = .exited := by
  refine hend.resolve_right fun hw => ht (h.watches t ?_)
  rw [hw]
  rfl

theorem Sys.Inv.watcher_exited (h : s.Inv tcount limit)
    (hend : s.pc (Fin.last n) = .exited ∨ s.pc (Fin.last n) = .watchExited) :
    s.pc (Fin.last n) = .watchExited := by
  refine hend.resolve_left fun hw => h.works (Fin.last n) ?_ rfl
  rw [hw]
  rfl

/-- However the threads are scheduled and whatever returns `pthread_cond_wait` without a signal: the
signal is sent at most once, `watch_count` does not go on before the limit is reached, and when
`main` has waited for all threads the counter has every increment, and the signal was sent (but for
a limit of zero). -/
theorem condvar_counts (n tcount limit : Nat) (es : List (Ev n)) :
    let s := run (Sys.step tcount limit) (Sys.start n) es
    let sent := tally signals (Sys.step tcount limit) (Sys.start n) es
    sent ≤ 1 ∧ (s.pc (Fin.last n) = .watchExited → limit ≤ s.count) ∧
      (s.main = .done → s.count = n * tcount ∧ sent = min 1 limit) := by
  intro s sent
  have hinv : s.Inv tcount limit := inv_run n tcount limit es
  have hsent : (s.signalled limit).toNat = sent := by
    have hrun := run_tally (Sys.Inv tcount limit) (fun s => (s.signalled limit).toNat)
      (fun _ e hs => hs.step e) (fun _ e hs => signalled_step hs e) (start_inv n tcount limit) es
    have hzero : (Sys.start n).signalled limit = false := by
      have hle : ¬ (0 < limit ∧ limit ≤ (Sys.start n).count) := fun h => Nat.not_lt.2 h.2 h.1
      rw [Sys.signalled, decide_eq_false hle, Bool.false_and]
    simp only [hzero, Bool.toNat_false, Nat.zero_add] at hrun
    exact hrun
  refine ⟨hsent ▸ Bool.toNat_le _, ?_, ?_⟩
  · intro hw
    have hk := hinv.knows (Fin.last n)
    rw [hw] at hk
    exact hk
  · intro hm
    have hphase := hinv.phase
    rw [hm] at hphase
    have hw := hinv.watcher_exited (hphase (Fin.last n))
    have hk := hinv.knows (Fin.last n)
    rw [hw] at hk
    refine ⟨hinv.count_of_ended (fun t ht => hinv.worker_exited ht (hphase t))
      (by rw [hw]; rfl), ?_⟩
    have hpend : s.pending limit = false := by
      refine Bool.eq_false_iff.2 fun hp => ?_
      obtain ⟨t, ht⟩ := pending_iff.1 hp
      rcases hphase t with he | he <;>
      · rw [he] at ht
        cases ht
    rw [← hsent, Sys.signalled, hpend, Bool.not_false, Bool.and_true]
    cases limit with
    | zero => rfl
    | succ l =>
      rw [decide_eq_true ⟨Nat.succ_pos l, hk⟩]
      exact (Nat.min_eq_left (Nat.succ_pos l)).symm

end SysPrg.Condvar
