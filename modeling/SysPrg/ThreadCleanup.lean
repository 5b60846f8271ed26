import SysPrg.Kernel
import SysPrg.Run

namespace SysPrg.ThreadCleanup
set_option autoImplicit true

inductive Who where
  | main
  | thread
  deriving DecidableEq, Repr

inductive Main where
  | create
  | sleep
  | cancel
  | lock
  | setGlob
  | unlock
  | signal
  | join
  | done (canceled : Bool)
  | failed
  deriving DecidableEq, Repr

/-- Where `threadFunc` is, in `pthread_cond_wait` from `waiting` to `relock` and in `cleanupHandler`
at `free` and `unlock`. The flag says whether the thread is being cancelled, and of an `exited`
thread also whether the handler was run. -/
inductive Thread where
  | unborn
  | malloc
  | printAllocated
  | lock
  | test
  | waiting
  | relock (canceled : Bool)
  | printDone
  | free (canceled : Bool)
  | unlock (canceled : Bool)
  | exited (canceled cleaned : Bool)
  deriving DecidableEq, Repr

/-- `canceled` is the request of `pthread_cancel`, and `freed` how often the buffer was freed. -/
structure Sys where
  mtx : Option Who
  glob : Bool
  canceled : Bool
  freed : Nat
  main : Main
  thread : Thread
  deriving DecidableEq, Repr

/-- `printf` may act on a request to cancel or not. A wait may end without a signal. -/
inductive Ev where
  | main (a : Answer)
  | thread (acts : Bool)
  | wakeup
  deriving DecidableEq, Repr

def Sys.start : Sys := ⟨none, false, false, 0, .create, .unborn⟩

/-- `pthread_cond_signal`, and a wake-up without one. -/
def Sys.wake (s : Sys) : Sys :=
  match s.thread with
  | .waiting => { s with thread := .relock false }
  | _ => s

def Sys.mainStep (cancels : Bool) (s : Sys) (a : Answer) : Sys :=
  match s.main with
  | .create =>
    match a with
    | .fail _ => { s with main := .failed }
    | .done _ => { s with main := .sleep, thread := .malloc }
  | .sleep => { s with main := if cancels then .cancel else .lock }
  | .cancel => { s with canceled := true, main := .join }
  | .lock =>
    match s.mtx with
    | none => { s with mtx := some .main, main := .setGlob }
    | some _ => s
  | .setGlob => { s with glob := true, main := .unlock }
  | .unlock => { s with mtx := none, main := .signal }
  | .signal => { s.wake with main := .join }
  | .join =>
    match s.thread with
    | .exited canceled _ => { s with main := .done canceled }
    | _ => s
  | .done _ | .failed => s

def Sys.threadStep (s : Sys) (acts : Bool) : Sys :=
  match s.thread with
  | .unborn | .exited _ _ => s
  | .malloc => { s with thread := .printAllocated }
  -- there is no handler yet
  | .printAllocated =>
    { s with thread := if s.canceled && acts then .exited true false else .lock }
  | .lock =>
    match s.mtx with
    | none => { s with mtx := some .thread, thread := .test }
    | some _ => s
  | .test =>
    if s.glob then { s with thread := .printDone } else { s with mtx := none, thread := .waiting }
  | .waiting => if s.canceled then { s with thread := .relock true } else s
  -- cancelled or not, the wait ends with the mutex
  | .relock canceled =>
    match s.mtx with
    | none => { s with mtx := some .thread, thread := if canceled then .free true else .test }
    | some _ => s
  | .printDone => { s with thread := .free (s.canceled && acts) }
  | .free canceled => { s with freed := s.freed + 1, thread := .unlock canceled }
  | .unlock canceled => { s with mtx := none, thread := .exited canceled true }

def Sys.step (cancels : Bool) (s : Sys) : Ev → Sys
  | .main a => s.mainStep cancels a
  | .thread acts => s.threadStep acts
  | .wakeup => s.wake

def Main.holds : Main → Bool
  | .setGlob | .unlock => true
  | _ => false

def Thread.holds : Thread → Bool
  | .test | .printDone | .free _ | .unlock _ => true
  | _ => false

def Main.set (cancels : Bool) : Main → Bool
  | .unlock | .signal => true
  | .join | .done _ => !cancels
  | _ => false

def Main.asked (cancels : Bool) : Main → Bool
  | .join | .done _ => cancels
  | _ => false

/-- What `main` is about to do is what its parameters say, and once it has signalled the thread is
not asleep. -/
def Main.Fits (cancels : Bool) (th : Thread) : Main → Prop
  | .create | .failed => th = .unborn
  | .sleep => th ≠ .unborn
  | .cancel => th ≠ .unborn ∧ cancels = true
  | .lock | .setGlob | .unlock | .signal => th ≠ .unborn ∧ cancels = false
  | .join => th ≠ .unborn ∧ (cancels = false → th ≠ .waiting)
  | .done canceled => ∃ cleaned, th = .exited canceled cleaned

def Thread.Knows (glob canceled : Bool) : Thread → Prop
  | .relock true | .free true | .unlock true | .exited true _ => canceled = true
  | .printDone | .free false | .unlock false | .exited false true => glob = true
  | .exited false false => False
  | _ => True

def Thread.freed : Thread → Nat
  | .unlock _ | .exited _ true => 1
  | _ => 0

theorem Thread.freed_le (th : Thread) : th.freed ≤ 1 := by
  unfold Thread.freed
  split
  · exact le_refl 1
  · exact le_refl 1
  · exact Nat.zero_le 1

structure Sys.Inv (cancels : Bool) (s : Sys) : Prop where
  mainHolds : s.main.holds = true ↔ s.mtx = some .main
  threadHolds : s.thread.holds = true ↔ s.mtx = some .thread
  glob : s.glob = s.main.set cancels
  canceled : s.canceled = s.main.asked cancels
  fits : s.main.Fits cancels s.thread
  knows : s.thread.Knows s.glob s.canceled
  freed : s.freed = s.thread.freed

theorem Thread.Knows.mono {th : Thread} (h : th.Knows glob canceled)
    (hg : glob = true → glob' = true) (hc : canceled = true → canceled' = true) :
    th.Knows glob' canceled' := by
  unfold Thread.Knows at h ⊢
  split at h
  all_goals first
    | exact hg h
    | exact hc h
    | exact h

theorem holds_of_ne (h : b = true ↔ o = some w) (ho : o ≠ some w) (ho' : o' ≠ some w) :
    b = true ↔ o' = some w :=
  ⟨fun hb => (ho (h.1 hb)).elim, fun he => (ho' he).elim⟩

theorem Main.Fits.wake (h : Main.Fits cancels .waiting m) : m.Fits cancels (.relock false) := by
  cases m with
  | create | failed => cases h
  | sleep => nofun
  | cancel | lock | setGlob | unlock | signal => exact ⟨nofun, h.2⟩
  | join => exact ⟨nofun, fun _ => nofun⟩
  | done c =>
    obtain ⟨cleaned, hth⟩ := h
    cases hth

theorem Sys.Inv.wake (h : Sys.Inv cancels s) : s.wake.Inv cancels := by
  unfold Sys.wake
  split
  · next hw =>
    obtain ⟨hmain, hthread, hglob, hcanceled, hfits, -, hfreed⟩ := h
    rw [hw] at hthread hfits hfreed
    exact ⟨hmain, hthread, hglob, hcanceled, hfits.wake, trivial, hfreed⟩
  · exact h

theorem Sys.Inv.mainStep (h : Sys.Inv cancels s) (a : Answer) :
    (s.mainStep cancels a).Inv cancels := by
  obtain ⟨mtx, glob, canceled, freed, main, thread⟩ := s
  obtain ⟨hmain, hthread, hglob, hcanceled, hfits, hknows, hfreed⟩ := h
  simp only at hmain hthread hglob hcanceled hfits hknows hfreed
  subst hglob hcanceled hfreed
  cases main with
  | create =>
    cases a with
    | fail e => exact ⟨hmain, hthread, rfl, rfl, hfits, hknows, rfl⟩
    | done k =>
      obtain rfl : thread = .unborn := hfits
      exact ⟨hmain, hthread, rfl, rfl, nofun, trivial, rfl⟩
  | sleep =>
    cases cancels with
    | false => exact ⟨hmain, hthread, rfl, rfl, ⟨hfits, rfl⟩, hknows, rfl⟩
    | true => exact ⟨hmain, hthread, rfl, rfl, ⟨hfits, rfl⟩, hknows, rfl⟩
  | cancel =>
    obtain ⟨hborn, rfl⟩ := hfits
    exact ⟨hmain, hthread, rfl, rfl, ⟨hborn, nofun⟩, hknows.mono id fun _ => rfl, rfl⟩
  | lock =>
    cases mtx with
    | none =>
      exact ⟨⟨fun _ => rfl, fun _ => rfl⟩, holds_of_ne hthread nofun nofun, rfl, rfl, hfits, hknows,
        rfl⟩
    | some w => exact ⟨hmain, hthread, rfl, rfl, hfits, hknows, rfl⟩
  | setGlob =>
    exact ⟨hmain, hthread, rfl, rfl, hfits, hknows.mono (fun _ => rfl) id, rfl⟩
  | unlock =>
    obtain rfl : mtx = some .main := hmain.1 rfl
    exact ⟨⟨nofun, nofun⟩, holds_of_ne hthread nofun nofun, rfl, rfl, hfits, hknows, rfl⟩
  | signal =>
    obtain ⟨hborn, rfl⟩ := hfits
    simp only [Sys.mainStep, Sys.wake]
    split
    · exact ⟨hmain, hthread, rfl, rfl, ⟨nofun, fun _ => nofun⟩, trivial, rfl⟩
    · next hne => exact ⟨hmain, hthread, rfl, rfl, ⟨hborn, fun _ => hne⟩, hknows, rfl⟩
  | join =>
    simp only [Sys.mainStep]
    split
    · next canceled cleaned =>
      exact ⟨hmain, hthread, rfl, rfl, ⟨cleaned, rfl⟩, hknows, rfl⟩
    · exact ⟨hmain, hthread, rfl, rfl, hfits, hknows, rfl⟩
  | done c => exact ⟨hmain, hthread, rfl, rfl, hfits, hknows, rfl⟩
  | failed => exact ⟨hmain, hthread, rfl, rfl, hfits, hknows, rfl⟩

theorem Main.Fits.to {th th' : Thread} (h : Main.Fits cancels th m) (hborn : th ≠ .unborn)
    (hend : ∀ c b, th ≠ .exited c b) (hborn' : th' ≠ .unborn)
    (hwait : th' = .waiting → m.set cancels = false) : m.Fits cancels th' := by
  cases m with
  | create | failed => exact (hborn h).elim
  | sleep => exact hborn'
  | cancel | lock | setGlob | unlock | signal => exact ⟨hborn', h.2⟩
  | join =>
    refine ⟨hborn', fun hc hw => ?_⟩
    have hset := hwait hw
    rw [hc] at hset
    cases hset
  | done c =>
    obtain ⟨cleaned, hth⟩ := h
    exact (hend c cleaned hth).elim

theorem Sys.Inv.threadStep (h : Sys.Inv cancels s) (acts : Bool) :
    (s.threadStep acts).Inv cancels := by
  obtain ⟨mtx, glob, canceled, freed, main, thread⟩ := s
  obtain ⟨hmain, hthread, hglob, hcanceled, hfits, hknows, hfreed⟩ := h
  simp only at hmain hthread hglob hcanceled hfits hknows hfreed
  subst hfreed
  cases thread with
  | unborn => exact ⟨hmain, hthread, hglob, hcanceled, hfits, hknows, rfl⟩
  | malloc =>
    exact ⟨hmain, hthread, hglob, hcanceled, hfits.to nofun nofun nofun nofun, trivial, rfl⟩
  | printAllocated =>
    simp only [Sys.threadStep]
    split
    · next hc =>
      exact ⟨hmain, hthread, hglob, hcanceled, hfits.to nofun nofun nofun nofun,
        (Bool.and_eq_true_iff.1 hc).1, rfl⟩
    · exact ⟨hmain, hthread, hglob, hcanceled, hfits.to nofun nofun nofun nofun, trivial, rfl⟩
  | lock =>
    cases mtx with
    | none =>
      exact ⟨holds_of_ne hmain nofun nofun, ⟨fun _ => rfl, fun _ => rfl⟩, hglob, hcanceled,
        hfits.to nofun nofun nofun nofun, trivial, rfl⟩
    | some w => exact ⟨hmain, hthread, hglob, hcanceled, hfits, hknows, rfl⟩
  | test =>
    cases glob with
    | true => exact ⟨hmain, hthread, hglob, hcanceled, hfits.to nofun nofun nofun nofun, rfl, rfl⟩
    | false =>
      obtain rfl : mtx = some .thread := hthread.1 rfl
      exact ⟨holds_of_ne hmain nofun nofun, ⟨nofun, nofun⟩, hglob, hcanceled,
        hfits.to nofun nofun nofun fun _ => hglob.symm, trivial, rfl⟩
  | waiting =>
    cases canceled with
    | true => exact ⟨hmain, hthread, hglob, hcanceled, hfits.to nofun nofun nofun nofun, rfl, rfl⟩
    | false => exact ⟨hmain, hthread, hglob, hcanceled, hfits, hknows, rfl⟩
  | relock c =>
    cases mtx with
    | none =>
      cases c with
      | true =>
        exact ⟨holds_of_ne hmain nofun nofun, ⟨fun _ => rfl, fun _ => rfl⟩, hglob, hcanceled,
          hfits.to nofun nofun nofun nofun, hknows, rfl⟩
      | false =>
        exact ⟨holds_of_ne hmain nofun nofun, ⟨fun _ => rfl, fun _ => rfl⟩, hglob, hcanceled,
          hfits.to nofun nofun nofun nofun, trivial, rfl⟩
    | some w => exact ⟨hmain, hthread, hglob, hcanceled, hfits, hknows, rfl⟩
  | printDone =>
    have hfits' : ∀ c, main.Fits cancels (.free c) := fun c => hfits.to nofun nofun nofun nofun
    simp only [Sys.threadStep]
    cases hc : canceled && acts with
    | true =>
      exact ⟨hmain, hthread, hglob, hcanceled, hfits' true, (Bool.and_eq_true_iff.1 hc).1, rfl⟩
    | false => exact ⟨hmain, hthread, hglob, hcanceled, hfits' false, hknows, rfl⟩
  | free c =>
    have hknows' : (Thread.unlock c).Knows glob canceled := by
      cases c <;> exact hknows
    exact ⟨hmain, hthread, hglob, hcanceled, hfits.to nofun nofun nofun nofun, hknows', rfl⟩
  | unlock c =>
    obtain rfl : mtx = some .thread := hthread.1 rfl
    have hknows' : (Thread.exited c true).Knows glob canceled := by
      cases c <;> exact hknows
    exact ⟨holds_of_ne hmain nofun nofun, ⟨nofun, nofun⟩, hglob, hcanceled,
      hfits.to nofun nofun nofun nofun, hknows', rfl⟩
  | exited c b => exact ⟨hmain, hthread, hglob, hcanceled, hfits, hknows, rfl⟩

theorem Sys.Inv.step (h : Sys.Inv cancels s) (e : Ev) : (s.step cancels e).Inv cancels := by
  cases e with
  | main a => exact h.mainStep a
  | thread acts => exact h.threadStep acts
  | wakeup => exact h.wake

theorem start_inv (cancels : Bool) : Sys.start.Inv cancels :=
  ⟨⟨nofun, nofun⟩, ⟨nofun, nofun⟩, rfl, rfl, rfl, trivial, rfl⟩

theorem inv_run (cancels : Bool) (es : List Ev) : (run (Sys.step cancels) .start es).Inv cancels :=
  run_invariant (Sys.Inv cancels) (fun _ e h => h.step e) (start_inv cancels) es

theorem Sys.Inv.free_of (h : Sys.Inv cancels s) (hm : s.main.holds = false)
    (ht : s.thread.holds = false) : s.mtx = none := by
  cases ho : s.mtx with
  | none => rfl
  | some w =>
    cases w with
    | main => cases hm.symm.trans (h.mainHolds.2 ho)
    | thread => cases ht.symm.trans (h.threadHolds.2 ho)

theorem Sys.Inv.joined (h : Sys.Inv cancels s) (hm : s.main = .done c) :
    c = cancels ∧ s.mtx = none ∧
      (s.freed = 1 ∨ cancels = true ∧ s.freed = 0 ∧ s.thread = .exited true false) := by
  have hfits := h.fits
  rw [hm] at hfits
  obtain ⟨cleaned, hth⟩ := hfits
  have hknows := h.knows
  rw [h.glob, h.canceled, hm, hth] at hknows
  have hfree : s.mtx = none := h.free_of (by rw [hm]; rfl) (by rw [hth]; rfl)
  rw [h.freed, hth]
  cases c with
  | true =>
    have hcancels : cancels = true := hknows
    cases cleaned with
    | true => exact ⟨hcancels.symm, hfree, .inl rfl⟩
    | false => exact ⟨hcancels.symm, hfree, .inr ⟨hcancels, rfl, rfl⟩⟩
  | false =>
    cases cleaned with
    | true =>
      have hcancels : (!cancels) = !false := hknows
      exact ⟨(Bool.not_inj hcancels).symm, hfree, .inl rfl⟩
    | false => exact hknows.elim

/-- However the two are scheduled: when `main` has joined the thread, it was cancelled exactly if it
was to be, the mutex is free, and the buffer was freed once, but for a thread that was cancelled
before it had its handler. Nothing is ever freed twice. -/
theorem thread_cleanup_joined (cancels : Bool) (es : List Ev) :
    let s := run (Sys.step cancels) .start es
    s.freed ≤ 1 ∧ ∀ canceled, s.main = .done canceled → canceled = cancels ∧ s.mtx = none ∧
      (s.freed = 1 ∨ cancels = true ∧ s.freed = 0 ∧ s.thread = .exited true false) := by
  intro s
  have h : s.Inv cancels := inv_run cancels es
  exact ⟨h.freed ▸ s.thread.freed_le, fun _ hm => h.joined hm⟩

def Main.left : Main → Nat
  | .create => 8
  | .sleep => 7
  | .cancel | .lock => 6
  | .setGlob => 5
  | .unlock => 4
  | .signal => 3
  | .join => 1
  | .done _ | .failed => 0

def Thread.left : Thread → Nat
  | .malloc => 10
  | .printAllocated => 9
  | .lock | .relock false => 8
  | .test => 7
  | .printDone => 6
  | .waiting => 5
  | .relock true => 4
  | .free _ => 3
  | .unlock _ => 2
  | .exited _ _ | .unborn => 0

/-- What `main` does counts more than all that the thread does. -/
def Sys.left (s : Sys) : Nat := 12 * s.main.left + s.thread.left

theorem threadStep_left {s : Sys} (hborn : s.thread ≠ .unborn)
    (hend : ∀ c b, s.thread ≠ .exited c b)
    (hwait : s.thread = .waiting → s.canceled = true)
    (hmtx : s.thread.holds = false → s.mtx = none) :
    (s.threadStep false).main = s.main ∧ (s.threadStep false).left < s.left := by
  obtain ⟨mtx, glob, canceled, freed, main, thread⟩ := s
  have hlt : ∀ {m n : Nat}, m < n → 12 * main.left + m < 12 * main.left + n :=
    fun h => Nat.add_lt_add_left h _
  cases thread with
  | unborn => exact (hborn rfl).elim
  | exited c b => exact (hend c b rfl).elim
  | malloc => exact ⟨rfl, hlt (Nat.lt_succ_self 9)⟩
  | printAllocated =>
    cases canceled <;> exact ⟨rfl, hlt (Nat.lt_succ_self 8)⟩
  | lock =>
    obtain rfl : mtx = none := hmtx rfl
    exact ⟨rfl, hlt (Nat.lt_succ_self 7)⟩
  | test =>
    cases glob with
    | true => exact ⟨rfl, hlt (Nat.lt_succ_self 6)⟩
    | false => exact ⟨rfl, hlt (by decide : 5 < 7)⟩
  | waiting =>
    obtain rfl : canceled = true := hwait rfl
    exact ⟨rfl, hlt (Nat.lt_succ_self 4)⟩
  | relock c =>
    obtain rfl : mtx = none := hmtx rfl
    cases c with
    | true => exact ⟨rfl, hlt (Nat.lt_succ_self 3)⟩
    | false => exact ⟨rfl, hlt (Nat.lt_succ_self 7)⟩
  | printDone =>
    cases canceled <;> exact ⟨rfl, hlt (by decide : 3 < 6)⟩
  | free c => exact ⟨rfl, hlt (Nat.lt_succ_self 2)⟩
  | unlock c => exact ⟨rfl, hlt (by decide : 0 < 2)⟩

theorem Thread.left_le (th : Thread) : th.left ≤ 10 := by
  unfold Thread.left
  split <;> decide

theorem left_lt_of_main {s t : Sys} (h : t.main.left < s.main.left) : t.left < s.left := by
  have hle := t.thread.left_le
  simp only [Sys.left]
  omega

theorem Sys.Inv.thread_left (h : Sys.Inv cancels s) (hborn : s.thread ≠ .unborn)
    (hend : ∀ c b, s.thread ≠ .exited c b) (hwait : s.thread = .waiting → s.canceled = true)
    (hm : s.main.holds = false) (hf : s.main ≠ .failed) :
    ∃ e, e ≠ .wakeup ∧ (s.step cancels e).main ≠ .failed ∧ (s.step cancels e).left < s.left := by
  obtain ⟨hmain, hlt⟩ := threadStep_left hborn hend hwait fun ht => h.free_of hm ht
  refine ⟨.thread false, nofun, ?_, hlt⟩
  have hstep : (s.step cancels (.thread false)).main = s.main := hmain
  rw [hstep]
  exact hf

theorem Sys.Inv.progress (h : Sys.Inv cancels s) (hf : s.main ≠ .failed) :
    (∃ c, s.main = .done c) ∨ ∃ e, e ≠ .wakeup ∧ (s.step cancels e).main ≠ .failed ∧
      (s.step cancels e).left < s.left := by
  have hthread := h.thread_left
  have hfits := h.fits
  have hholds := h.mainHolds
  have hlocked := h.threadHolds
  have hcanceled := h.canceled
  obtain ⟨mtx, glob, canceled, freed, main, thread⟩ := s
  cases main with
  | create => exact .inr ⟨.main (.done 0), nofun, nofun, left_lt_of_main (by decide : 7 < 8)⟩
  | sleep =>
    cases cancels with
    | false => exact .inr ⟨.main (.done 0), nofun, nofun, left_lt_of_main (by decide : 6 < 7)⟩
    | true => exact .inr ⟨.main (.done 0), nofun, nofun, left_lt_of_main (by decide : 6 < 7)⟩
  | cancel => exact .inr ⟨.main (.done 0), nofun, nofun, left_lt_of_main (by decide : 1 < 6)⟩
  | lock =>
    cases mtx with
    | none => exact .inr ⟨.main (.done 0), nofun, nofun, left_lt_of_main (by decide : 5 < 6)⟩
    | some w =>
      cases w with
      | main => cases hholds.2 rfl
      | thread =>
        have hin : thread.holds = true := hlocked.2 rfl
        refine .inr (hthread hfits.1 ?_ ?_ rfl hf)
        · rintro c b rfl
          cases hin
        · rintro rfl
          cases hin
  | setGlob => exact .inr ⟨.main (.done 0), nofun, nofun, left_lt_of_main (by decide : 4 < 5)⟩
  | unlock => exact .inr ⟨.main (.done 0), nofun, nofun, left_lt_of_main (by decide : 3 < 4)⟩
  | signal => exact .inr ⟨.main (.done 0), nofun, nofun, left_lt_of_main (by decide : 1 < 3)⟩
  | join =>
    by_cases hend : ∃ c b, thread = .exited c b
    · obtain ⟨c, b, rfl⟩ := hend
      exact .inr ⟨.main (.done 0), nofun, nofun, left_lt_of_main (by decide : 0 < 1)⟩
    · refine .inr (hthread hfits.1 (fun c b he => hend ⟨c, b, he⟩) ?_ rfl hf)
      intro hw
      cases cancels with
      | false => exact (hfits.2 rfl hw).elim
      | true => exact hcanceled
  | done c => exact .inl ⟨c, rfl⟩
  | failed => exact (hf rfl).elim

/-- Nothing deadlocks and no wake-up is lost: unless the thread could not be created, `main` can
always still join it, without a wake-up that nobody has sent. -/
theorem thread_cleanup_ends (cancels : Bool) (es : List Ev)
    (hf : (run (Sys.step cancels) .start es).main ≠ .failed) :
    ∃ es', .wakeup ∉ es' ∧ (run (Sys.step cancels) .start (es ++ es')).main = .done cancels := by
  have hprog : ∀ s : Sys, s.Inv cancels ∧ s.main ≠ .failed → (∃ c, s.main = .done c) ∨
      ∃ e, (e == .wakeup) = false ∧
        ((s.step cancels e).Inv cancels ∧ (s.step cancels e).main ≠ .failed) ∧
        (s.step cancels e).left < s.left := by
    rintro s ⟨hs, hm⟩
    refine (hs.progress hm).imp_right ?_
    rintro ⟨e, hne, he, hlt⟩
    exact ⟨e, beq_eq_false_iff_ne.2 hne, ⟨hs.step e, he⟩, hlt⟩
  obtain ⟨es', hsaw, c, hdone⟩ := exists_run_of_progress (p := fun _ e => e == Ev.wakeup) _ _ _
    hprog ⟨inv_run cancels es, hf⟩
  rw [← run_append] at hdone
  refine ⟨es', ?_, ((inv_run cancels (es ++ es')).joined hdone).1 ▸ hdone⟩
  intro hmem
  cases (forall_of_saw hsaw .wakeup hmem).symm.trans (beq_self_eq_true _)

theorem thread_cleanup_ends_waiting :
    (run (Sys.step true) .start (.main (.done 0) :: .replicate 4 (.thread false))).thread =
        .waiting ∧
    ∃ es', .wakeup ∉ es' ∧ (run (Sys.step true) .start
      ((.main (.done 0) :: .replicate 4 (.thread false)) ++ es')).main = .done true :=
  ⟨by decide, thread_cleanup_ends true _ (by decide)⟩

end SysPrg.ThreadCleanup
