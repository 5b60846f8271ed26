import Mathlib.Logic.Function.Basic
import SysPrg.Kernel
import SysPrg.MsgQueue

namespace SysPrg.TSig
set_option autoImplicit true

abbrev Sig := Nat

def sigkill : Sig := 9

def sigsegv : Sig := 11

def sigcont : Sig := 18

def sigstop : Sig := 19

/-- The signals that `main` takes out of the set to block, and for which it has a handler: SIGSEGV,
SIGBUS, SIGABRT, SIGFPE and SIGILL. -/
def synchronous : List Sig := [sigsegv, 7, 6, 8, 4]

/-- The two that the library keeps for itself: `sigfillset` and `pthread_sigmask` leave them out. -/
def reserved : List Sig := [32, 33]

/-- SIGCHLD, SIGCONT, SIGURG and SIGWINCH, ignored if there is no handler. -/
def ignored : List Sig := [17, sigcont, 23, 28]

/-- SIGTSTP, SIGTTIN and SIGTTOU, which stop the process if there is no handler. -/
def stops : List Sig := [20, 21, 22]

def numThreads : Nat := 2

def sigset (n : Sig) : Bool :=
  !synchronous.contains n && !reserved.contains n && n != sigkill && n != sigstop

inductive Status where
  | running
  | exited (status : Int)
  | killed (sig : Sig)
  deriving DecidableEq, Repr

/-- Where `main` is. It has yet to install the handler for `rest`, or creates thread `t` next. -/
inductive Main where
  | args
  | sigmask
  | altstack
  | sigaction (rest : List Sig)
  | attr
  | create (t : Nat)
  | pause
  deriving DecidableEq, Repr

/-- Created thread 0 is in `signal_handler`, the others are in `work`. -/
inductive Tid where
  | main
  | created (t : Nat)
  deriving DecidableEq, Repr

/-- What a thread blocks, and the runs of `fatal_sigs_handler` that it is in, the last one first:
for which signal, and whether that run has made SIGSEGV deadly again. -/
structure Thread where
  blocked : Sig → Bool
  handling : List (Sig × Bool)

/-- A signal is blocked while it is handled, as there is no SA_NODEFER. -/
def Thread.blocks (th : Thread) (n : Sig) : Bool := th.blocked n || th.handling.any (·.1 == n)

/-- The process. `pending` are the signals sent to it that no thread has taken, `left t` the beeps
that worker `t` has to make, and `handled` is `signal_handled`. -/
structure Proc where
  threads : Tid → Option Thread
  handlers : List Sig
  pending : List Sig
  handled : Int
  main : Main
  left : Nat → Nat
  status : Status

/-- A thread goes on, thread 0 gets a signal from `sigwait`, a thread is interrupted by a signal, or
a signal is sent to the process. -/
inductive Ev where
  | step (t : Tid) (a : Answer)
  | sigwait (pick : Sig)
  | deliver (t : Tid) (n : Sig)
  | kill (n : Sig)
  deriving DecidableEq, Repr

def Proc.start : Proc :=
  { threads := fun t => if t = .main then some ⟨fun _ => false, []⟩ else none
    handlers := []
    pending := []
    handled := -1
    main := .args
    left := fun _ => 2000
    status := .running }

def Proc.exit (p : Proc) : Proc := { p with status := .exited 1 }

def Proc.setThread (p : Proc) (t : Tid) (th : Option Thread) : Proc :=
  { p with threads := Function.update p.threads t th }

/-- What signal `n` does to a thread that gets it. -/
def Proc.act (p : Proc) (t : Tid) (th : Thread) (n : Sig) : Proc :=
  if n ∈ p.handlers then p.setThread t (some { th with handling := (n, false) :: th.handling })
  else if n ∈ ignored ∨ n ∈ stops then p
  else { p with status := .killed n }

/-- The end of `fatal_sigs_handler`: `signal(SIGSEGV, SIG_DFL)`, then `raise(SIGSEGV)`, which comes
back to the `exit(1)` if the thread has the signal blocked. -/
def Proc.fatalSigsHandler (p : Proc) (t : Tid) (th : Thread) (n : Sig) (reset : Bool)
    (rest : List (Sig × Bool)) : Proc :=
  if reset then if th.blocks sigsegv then p.exit else p.act t th sigsegv
  else
    { p.setThread t (some { th with handling := (n, true) :: rest }) with
      handlers := p.handlers.erase sigsegv }

/-- `opt` is what `atoi` makes of the argument, if there is just one. A new thread blocks what
`main` blocks. -/
def Proc.mainStep (opt : Option Int) (p : Proc) (th : Thread) (a : Answer) : Proc :=
  match p.main, a with
  | .args, _ => if opt = some 0 ∨ opt = some 1 then { p with main := .sigmask } else p.exit
  | .pause, _ => p
  | .sigaction [], _ => { p with main := .attr }
  | _, .fail _ => p.exit
  | .sigmask, .done _ =>
    { p.setThread .main (some { th with blocked := sigset }) with main := .altstack }
  | .altstack, .done _ => { p with main := .sigaction synchronous }
  | .sigaction (n :: rest), .done _ =>
    { p with handlers := p.handlers ++ [n], main := .sigaction rest }
  | .attr, .done _ => { p with main := .create 0 }
  | .create t, .done _ =>
    { p.setThread (.created t) (some ⟨th.blocked, []⟩) with
      main := if t < numThreads then .create (t + 1) else .pause }

/-- Worker 1 follows a null pointer in the end, if it is asked to. A fault that is blocked kills. -/
def Proc.work (opt : Option Int) (p : Proc) (t : Nat) (th : Thread) : Proc :=
  match p.left t with
  | left + 1 => { p with left := Function.update p.left t left }
  | 0 =>
    if t = 1 ∧ opt = some 1 then
      if th.blocks sigsegv then { p with status := .killed sigsegv }
      else p.act (.created t) th sigsegv
    else p.setThread (.created t) none

def Proc.threadStep (opt : Option Int) (p : Proc) (t : Tid) (th : Thread) (a : Answer) : Proc :=
  match th.handling, t with
  | (n, reset) :: rest, t => p.fatalSigsHandler t th n reset rest
  | [], .main => p.mainStep opt th a
  | [], .created 0 => p
  | [], .created (t + 1) => p.work opt (t + 1) th

/-- SIGCONT takes pending stop signals away, and these take a pending SIGCONT away. -/
def flush (pending : List Sig) (n : Sig) : List Sig :=
  if n = sigcont then pending.filter (· ∉ stops)
  else if n ∈ stops ∨ n = sigstop then pending.filter (· ≠ sigcont)
  else pending

/-- Whether a signal becomes pending: not one that is ignored, and a standard signal that is pending
already does not become so twice. -/
def Proc.accepts (p : Proc) (n : Sig) : Bool :=
  (match p.threads .main with
    | some th => th.blocks n || n ∉ ignored
    | none => false) && (32 ≤ n || n ∉ p.pending)

def Proc.kill (p : Proc) (n : Sig) : Proc :=
  if n = 0 ∨ 64 < n then p
  else if n = sigkill then { p with status := .killed sigkill }
  else if n ≠ sigstop ∧ p.accepts n then { p with pending := flush p.pending n ++ [n] }
  else { p with pending := flush p.pending n }

/-- `signal_handler` waits for every signal that `sigfillset` has. -/
def Proc.sigwait (p : Proc) (th : Thread) (pick : Sig) : Proc :=
  if th.handling = [] ∧ pick ∈ p.pending ∧ pick ∉ reserved then
    { p with pending := p.pending.erase pick, handled := pick }
  else p

def Proc.deliver (p : Proc) (t : Tid) (th : Thread) (n : Sig) : Proc :=
  if n ∈ p.pending ∧ th.blocks n = false then
    { p with pending := p.pending.erase n }.act t th n
  else p

def Proc.next (opt : Option Int) (p : Proc) : Ev → Proc
  | .step t a => (p.threads t).elim p fun th => p.threadStep opt t th a
  | .sigwait pick => (p.threads (.created 0)).elim p fun th => p.sigwait th pick
  | .deliver t n => (p.threads t).elim p fun th => p.deliver t th n
  | .kill n => p.kill n

def Proc.step (opt : Option Int) (p : Proc) (e : Ev) : Proc :=
  if p.status = .running then p.next opt e else p

def Proc.sends (p : Proc) (n : Sig) : Option (QueueEv Sig) :=
  if n = 0 ∨ 64 < n then none
  else if n = sigkill then none
  else if n ≠ sigstop ∧ p.accepts n then some (.sent n)
  else none

def Proc.event (p : Proc) (e : Ev) : Option (QueueEv Sig) :=
  if p.status = .running then
    match e with
    | .kill n => p.sends n
    | .sigwait pick =>
      (p.threads (.created 0)).bind fun th =>
        if th.handling = [] ∧ pick ∈ p.pending ∧ pick ∉ reserved then some (.received pick)
        else none
    | _ => none
  else none

theorem forall_setThread {p : Proc} {P : Tid → Thread → Prop}
    (h : ∀ u uh, p.threads u = some uh → P u uh) (ho : ∀ th, o = some th → P t th) :
    ∀ u uh, (p.setThread t o).threads u = some uh → P u uh := by
  intro u uh hu
  by_cases hut : u = t
  · subst hut
    simp only [Proc.setThread, Function.update_self] at hu
    exact ho uh hu
  · simp only [Proc.setThread, Function.update_of_ne hut] at hu
    exact h u uh hu

theorem setThread_self (p : Proc) (t : Tid) (o : Option Thread) :
    (p.setThread t o).threads t = o :=
  Function.update_self ..

theorem setThread_of_ne (p : Proc) (o : Option Thread) (h : u ≠ t) :
    (p.setThread t o).threads u = p.threads u :=
  Function.update_of_ne h ..

/-- What `sigwait` takes signals from, and where `signal_handler` puts them. -/
def Proc.mail (p : Proc) : List Sig × Int := (p.pending, p.handled)

theorem act_mail (p : Proc) : (p.act t th n).mail = p.mail := by
  unfold Proc.act
  split
  · rfl
  · split <;> rfl

theorem fatalSigsHandler_mail (p : Proc) :
    (p.fatalSigsHandler t th n reset rest).mail = p.mail := by
  unfold Proc.fatalSigsHandler
  split
  · split
    · rfl
    · exact act_mail p
  · rfl

theorem mainStep_mail (p : Proc) : (p.mainStep opt th a).mail = p.mail := by
  unfold Proc.mainStep
  split
  case h_1 => split <;> rfl
  all_goals rfl

theorem work_mail (p : Proc) : (p.work opt t th).mail = p.mail := by
  unfold Proc.work
  split
  · rfl
  · split
    · split
      · rfl
      · exact act_mail p
    · rfl

theorem threadStep_mail (p : Proc) : (p.threadStep opt t th a).mail = p.mail := by
  unfold Proc.threadStep
  split
  · exact fatalSigsHandler_mail p
  · exact mainStep_mail p
  · rfl
  · exact work_mail p

/-- Only `sigwait`, an interruption and a sender change what is pending, and only `sigwait` what was
handled. -/
inductive Posts (p : Proc) : List Sig × Int → Option (QueueEv Sig) → Prop where
  | same : Posts p p.mail none
  | caught (hn : n ∈ p.pending) : Posts p (p.pending.erase n, n) (some (.received n))
  | interrupts (ht : p.threads t = some th) (hn : n ∈ p.pending) (hb : th.blocks n = false) :
    Posts p (p.pending.erase n, p.handled) none
  | sent (n : Sig) : Posts p ((p.kill n).pending, p.handled) (p.sends n)

theorem kill_handled (p : Proc) (n : Sig) : (p.kill n).handled = p.handled := by
  unfold Proc.kill
  split
  · rfl
  · split
    · rfl
    · split <;> rfl

theorem step_posts (opt : Option Int) (p : Proc) (e : Ev) :
    Posts p (p.step opt e).mail (p.event e) := by
  unfold Proc.step Proc.event
  split
  case isFalse => exact .same
  case isTrue =>
    cases e with
    | step t a =>
      simp only [Proc.next]
      cases p.threads t with
      | none => exact .same
      | some th =>
        rw [Option.elim_some, threadStep_mail]
        exact .same
    | sigwait pick =>
      simp only [Proc.next]
      cases p.threads (.created 0) with
      | none => exact .same
      | some th =>
        simp only [Option.elim_some, Option.bind_some, Proc.sigwait]
        split
        case isTrue hpick => exact .caught hpick.2.1
        case isFalse => exact .same
    | deliver t n =>
      simp only [Proc.next]
      cases ht : p.threads t with
      | none => exact .same
      | some th =>
        simp only [Option.elim_some, Proc.deliver]
        split
        case isTrue hn =>
          rw [act_mail]
          exact .interrupts ht hn.1 hn.2
        case isFalse => exact .same
    | kill n =>
      have hsent := Posts.sent (p := p) n
      rwa [← kill_handled p n] at hsent

def Main.mask : Main → Sig → Bool
  | .args | .sigmask => fun _ => false
  | _ => sigset

def Main.masked : Main → Bool
  | .args | .sigmask => false
  | _ => true

def Main.next : Main → Nat
  | .create t => t
  | .pause => numThreads + 1
  | _ => 0

def Main.rest : Main → List Sig
  | .args | .sigmask | .altstack => synchronous
  | .sigaction rest => rest
  | _ => []

theorem Main.mask_of_masked {m : Main} (h : m.masked = true) : m.mask = sigset := by
  cases m with
  | args | sigmask => cases h
  | _ => rfl

/-- Every thread blocks what `main` blocks, and handles only what has a handler. -/
def Thread.Fits (m : Main) (th : Thread) : Prop :=
  th.blocked = m.mask ∧ ∀ h ∈ th.handling, h.1 ∈ synchronous

/-- What holds in a process that was sent nothing before it had blocked the signals. -/
structure Inv (p : Proc) : Prop where
  threads : ∀ t th, p.threads t = some th → th.Fits p.main
  fresh : ∀ t, p.main.next ≤ t → p.threads (.created t) = none
  bound : ∀ t, p.main = .create t → t ≤ numThreads
  early : p.main.masked = false → p.pending = []
  handlers : p.handlers ⊆ synchronous
  rest : p.main.rest ⊆ synchronous
  killed : ∀ n, p.status = .killed n → sigset n = false

namespace Inv

theorem start : Inv .start where
  threads t th ht := by
    cases t with
    | main =>
      cases ht
      exact ⟨rfl, nofun⟩
    | created t => cases ht
  fresh _ _ := rfl
  bound := nofun
  early _ := rfl
  handlers := List.nil_subset _
  rest := List.Subset.refl _
  killed := nofun

theorem exit (h : Inv p) : Inv p.exit := { h with killed := nofun }

theorem kill_by (h : Inv p) (hn : sigset n = false) : Inv { p with status := .killed n } :=
  { h with
    killed := by
      intro m hm
      cases hm
      exact hn }

theorem erase (h : Inv p) (n : Sig) : Inv { p with pending := p.pending.erase n } :=
  { h with
    early := by
      intro hm
      show p.pending.erase n = []
      rw [h.early hm]
      rfl }

theorem setThread (h : Inv p) (ht : p.threads t = some th) {o : Option Thread}
    (ho : ∀ th', o = some th' → th'.Fits p.main) : Inv (p.setThread t o) :=
  { h with
    threads := forall_setThread h.threads ho
    fresh := by
      intro k hk
      have hne : Tid.created k ≠ t := by
        rintro rfl
        cases (h.fresh k hk).symm.trans ht
      exact (setThread_of_ne p _ hne).trans (h.fresh k hk) }

theorem setHandling (h : Inv p) (ht : p.threads t = some th) {hs : List (Sig × Bool)}
    (hsync : ∀ x ∈ hs, x.1 ∈ synchronous) :
    Inv (p.setThread t (some { th with handling := hs })) := by
  apply h.setThread ht
  intro th' hth'
  cases hth'
  exact ⟨(h.threads t th ht).1, hsync⟩

theorem act (h : Inv p) (ht : p.threads t = some th) (hn : sigset n = false) :
    Inv (p.act t th n) := by
  unfold Proc.act
  split
  case isTrue hin =>
    apply h.setHandling ht
    exact List.forall_mem_cons.2 ⟨h.handlers hin, (h.threads t th ht).2⟩
  case isFalse =>
    split
    · exact h
    · exact h.kill_by hn

theorem fatalSigsHandler (h : Inv p) (ht : p.threads t = some th)
    (hth : th.handling = (n, reset) :: outer) : Inv (p.fatalSigsHandler t th n reset outer) := by
  have hsync := (h.threads t th ht).2
  rw [hth, List.forall_mem_cons] at hsync
  unfold Proc.fatalSigsHandler
  split
  · split
    · exact h.exit
    · exact h.act ht rfl
  · have hset : Inv (p.setThread t (some { th with handling := (n, true) :: outer })) :=
      h.setHandling ht (List.forall_mem_cons.2 hsync)
    exact { hset with handlers := fun x hx => h.handlers (List.mem_of_mem_erase hx) }

theorem create (h : Inv p) (hm : p.main = .create t) (ht : p.threads .main = some th) :
    Inv { p.setThread (.created t) (some ⟨th.blocked, []⟩) with
      main := if t < numThreads then .create (t + 1) else .pause } := by
  have hfits := h.threads
  have hfresh := h.fresh
  rw [hm] at hfits hfresh
  -- where `main` goes on
  have hmain : ∀ m : Main, m.mask = sigset → m.masked = true → t < m.next →
      (∀ k, m = .create k → k ≤ numThreads) → m.rest = [] →
      Inv { p.setThread (.created t) (some ⟨th.blocked, []⟩) with main := m } := by
    intro m hms hmd hnext hbound hrest
    have hall : ∀ u uh, p.threads u = some uh → uh.Fits m :=
      fun u uh hu => ⟨(hfits u uh hu).1.trans hms.symm, (hfits u uh hu).2⟩
    exact {
      threads := by
        apply forall_setThread hall
        intro th' hth'
        cases hth'
        exact ⟨(hall .main th ht).1, nofun⟩
      fresh := by
        intro k hk
        have hlt : t < k := Nat.lt_of_lt_of_le hnext hk
        have hne : Tid.created k ≠ .created t := by
          intro he
          cases he
          exact Nat.lt_irrefl _ hlt
        exact (setThread_of_ne p _ hne).trans (hfresh k hlt.le)
      bound := hbound
      early := fun he => by cases hmd.symm.trans he
      handlers := h.handlers
      rest := hrest ▸ List.nil_subset _
      killed := h.killed }
  split
  case isTrue hlt =>
    refine hmain _ rfl rfl (Nat.lt_succ_self t) ?_ rfl
    intro k hk
    cases hk
    exact hlt
  case isFalse => exact hmain _ rfl rfl (Nat.lt_succ_of_le (h.bound t hm)) nofun rfl

theorem goto (h : Inv p) (hmask : p.main.mask = m.mask) (hnext : p.main.next = m.next)
    (hbound : ∀ t, m = .create t → t ≤ numThreads)
    (hmasked : p.main.masked = m.masked) (hrest : m.rest ⊆ synchronous) :
    Inv { p with main := m } :=
  { h with
    threads := fun t th ht => ⟨(h.threads t th ht).1.trans hmask, (h.threads t th ht).2⟩
    fresh := fun t hle => h.fresh t (hnext ▸ hle)
    bound := hbound
    early := fun hm => h.early (hmasked.trans hm)
    rest := hrest }

theorem block (h : Inv p) (hm : p.main = .sigmask) (ht : p.threads .main = some th) :
    Inv { p.setThread .main (some { th with blocked := sigset }) with main := .altstack } := by
  -- there is no other thread yet
  have hnone : ∀ k, p.threads (.created k) = none := by
    intro k
    apply h.fresh k
    rw [hm]
    exact Nat.zero_le k
  have hne : ∀ k, Tid.created k ≠ .main := nofun
  have hfresh : ∀ k, (p.setThread .main (some { th with blocked := sigset })).threads (.created k) =
      none := fun k => (setThread_of_ne p _ (hne k)).trans (hnone k)
  have hthreads : ∀ u uh, (p.setThread .main (some { th with blocked := sigset })).threads u =
      some uh → uh.Fits .altstack := by
    intro u uh hu
    cases u with
    | main =>
      simp only [Proc.setThread, Function.update_self, Option.some.injEq] at hu
      subst hu
      exact ⟨rfl, (h.threads .main th ht).2⟩
    | created k =>
      rw [hfresh k] at hu
      cases hu
  exact {
    threads := hthreads
    fresh := fun k _ => hfresh k
    bound := nofun
    early := nofun
    handlers := h.handlers
    rest := List.Subset.refl _
    killed := h.killed }

theorem mainStep (h : Inv p) (ht : p.threads .main = some th) : Inv (p.mainStep opt th a) := by
  unfold Proc.mainStep
  split
  case h_1 hm =>
    split
    · exact h.goto (by rw [hm]; rfl) (by rw [hm]; rfl) nofun (by rw [hm]; rfl) (List.Subset.refl _)
    · exact h.exit
  case h_2 => exact h
  case h_3 hm =>
    exact h.goto (by rw [hm]; rfl) (by rw [hm]; rfl) nofun (by rw [hm]; rfl) (List.nil_subset _)
  case h_4 => exact h.exit
  case h_5 hm => exact h.block hm ht
  case h_6 hm =>
    exact h.goto (by rw [hm]; rfl) (by rw [hm]; rfl) nofun (by rw [hm]; rfl) (List.Subset.refl _)
  case h_7 n rest _ hm =>
    have hrest : n :: rest ⊆ synchronous := by
      have hall := h.rest
      rw [hm] at hall
      exact hall
    have hgo : Inv { p with main := .sigaction rest } :=
      h.goto (by rw [hm]; rfl) (by rw [hm]; rfl) nofun (by rw [hm]; rfl)
        fun x hx => hrest (List.mem_cons_of_mem n hx)
    exact { hgo with
      handlers := List.append_subset.2
        ⟨h.handlers, List.cons_subset.2 ⟨hrest List.mem_cons_self, List.nil_subset _⟩⟩ }
  case h_8 hm =>
    refine h.goto (by rw [hm]; rfl) (by rw [hm]; rfl) ?_ (by rw [hm]; rfl) (List.nil_subset _)
    intro t ht
    cases ht
    exact Nat.zero_le _
  case h_9 hm => exact h.create hm ht

theorem work (h : Inv p) (ht : p.threads (.created t) = some th) : Inv (p.work opt t th) := by
  unfold Proc.work
  split
  · exact { h with }
  · split
    · split
      · exact h.kill_by rfl
      · exact h.act ht rfl
    · exact h.setThread ht nofun

theorem threadStep (h : Inv p) (ht : p.threads t = some th) : Inv (p.threadStep opt t th a) := by
  unfold Proc.threadStep
  split
  case h_1 hth => exact h.fatalSigsHandler ht hth
  case h_2 => exact h.mainStep ht
  case h_3 => exact h
  case h_4 => exact h.work ht

/-- A pending signal that a thread does not block is one that `main` leaves alone. -/
theorem sigset_of_deliver (h : Inv p) (ht : p.threads t = some th) (hn : n ∈ p.pending)
    (hb : th.blocks n = false) : sigset n = false := by
  have hmasked : p.main.masked = true := by
    rw [← Bool.not_eq_false]
    intro hm
    rw [h.early hm] at hn
    cases hn
  have hth : th.blocked n = sigset n := by
    rw [(h.threads t th ht).1, Main.mask_of_masked hmasked]
  rw [← hth]
  exact (Bool.or_eq_false_iff.1 hb).1

theorem deliver (h : Inv p) (ht : p.threads t = some th) : Inv (p.deliver t th n) := by
  unfold Proc.deliver
  split
  case isTrue hn => exact (h.erase n).act ht (h.sigset_of_deliver ht hn.1 hn.2)
  case isFalse => exact h

theorem sigwait (h : Inv p) : Inv (p.sigwait th pick) := by
  unfold Proc.sigwait
  split
  · exact { h.erase pick with }
  · exact h

theorem kill (h : Inv p) (hm : p.main.masked = true) : Inv (p.kill n) := by
  have hlate : p.main.masked = false → False := by
    rw [hm]
    nofun
  unfold Proc.kill
  split
  · exact h
  · split
    · exact h.kill_by rfl
    · split
      · exact { h with early := fun he => (hlate he).elim }
      · exact { h with early := fun he => (hlate he).elim }

end Inv

def Proc.tooEarly (p : Proc) (e : Ev) : Bool :=
  match e with
  | .kill _ => !p.main.masked
  | _ => false

theorem Inv.step (h : Inv p) (he : p.tooEarly e = false) : Inv (p.step opt e) := by
  unfold Proc.step
  split
  case isFalse => exact h
  case isTrue =>
    cases e with
    | step t a =>
      show Inv ((p.threads t).elim p _)
      cases ht : p.threads t with
      | none => exact h
      | some th => exact h.threadStep ht
    | sigwait pick =>
      show Inv ((p.threads (.created 0)).elim p _)
      cases p.threads (.created 0) with
      | none => exact h
      | some th => exact h.sigwait
    | deliver t n =>
      show Inv ((p.threads t).elim p _)
      cases ht : p.threads t with
      | none => exact h
      | some th => exact h.deliver ht
    | kill n => exact h.kill (by rwa [Proc.tooEarly, Bool.not_eq_false'] at he)

/-- The signals that are kept until `signal_handler` takes them: stop signals and SIGCONT take each
other away. -/
def kept (n : Sig) : Bool := sigset n && n ∉ stops && n != sigcont

theorem sigset_of_kept (h : kept n = true) : sigset n = true :=
  (Bool.and_eq_true_iff.1 (Bool.and_eq_true_iff.1 h).1).1

theorem count_flush (hn : kept n = true) (pending : List Sig) (m : Sig) :
    (flush pending m).count n = pending.count n := by
  simp only [kept, Bool.and_eq_true, decide_eq_true_eq, bne_iff_ne] at hn
  obtain ⟨⟨-, hstops⟩, hcont⟩ := hn
  unfold flush
  split
  · exact List.count_filter (by simpa using hstops)
  · split
    · exact List.count_filter (by simpa using hcont)
    · rfl

theorem count_kill (hn : kept n = true) (p : Proc) (m : Sig) :
    (p.kill m).pending.count n + (p.sends m).toList.count (.received n) =
      p.pending.count n + (p.sends m).toList.count (.sent n) := by
  unfold Proc.kill Proc.sends
  split
  · rfl
  · split
    · rfl
    · split
      · show (flush p.pending m ++ [m]).count n =
          p.pending.count n + [QueueEv.sent m].count (.sent n)
        rw [List.count_append, count_flush hn, List.count_singleton, List.count_singleton]
        congr 1
        by_cases hmn : m = n
        · rw [hmn, if_pos (beq_self_eq_true n), if_pos (beq_self_eq_true _)]
        · rw [if_neg fun he => hmn (eq_of_beq he),
            if_neg fun he => hmn (QueueEv.sent.inj (eq_of_beq he))]
      · exact count_flush hn p.pending m

/-- A signal that is kept goes only to `signal_handler`. -/
theorem count_posts (h : Inv p) (hn : kept n = true) (hp : Posts p mail ev) :
    mail.1.count n + ev.toList.count (.received n) =
      p.pending.count n + ev.toList.count (.sent n) := by
  cases hp with
  | same => rfl
  | @caught m hm =>
    show (p.pending.erase m).count n + [QueueEv.received m].count (.received n) =
      p.pending.count n
    by_cases hmn : m = n
    · subst hmn
      rw [List.count_erase_self, List.count_singleton_self]
      exact Nat.sub_add_cancel (List.count_pos_iff.2 hm)
    · rw [List.count_erase_of_ne (Ne.symm hmn), List.count_singleton,
        if_neg fun he => hmn (QueueEv.received.inj (eq_of_beq he))]
      rfl
  | @interrupts t th m ht hm hb =>
    have hne : m ≠ n := by
      rintro rfl
      cases (h.sigset_of_deliver ht hm hb).symm.trans (sigset_of_kept hn)
    exact List.count_erase_of_ne hne.symm
  | sent m => exact count_kill hn p m

theorem flush_sublist (pending : List Sig) (m : Sig) : (flush pending m).Sublist pending := by
  unfold flush
  split
  · exact List.filter_sublist
  · split
    · exact List.filter_sublist
    · exact List.Sublist.refl _

def Once (pending : List Sig) : Prop := ∀ n < 32, pending.count n ≤ 1

theorem Once.sublist (h : Once pending) (hs : pending'.Sublist pending) : Once pending' :=
  fun n hn => (hs.count_le n).trans (h n hn)

theorem Once.kill {p : Proc} {m : Sig} (h : Once p.pending) : Once (p.kill m).pending := by
  have hflush := h.sublist (flush_sublist p.pending m)
  unfold Proc.kill
  split
  · exact h
  · split
    · exact h
    · split
      case isFalse => exact hflush
      case isTrue hm =>
        intro n hn
        show (flush p.pending m ++ [m]).count n ≤ 1
        rw [List.count_append, List.count_singleton]
        by_cases hmn : m = n
        · -- it was accepted as there was none
          have hnot : n ∉ p.pending := by
            have hacc := (Bool.and_eq_true_iff.1 hm.2).2
            rw [hmn, decide_eq_false (Nat.not_le.2 hn), Bool.false_or] at hacc
            exact of_decide_eq_true hacc
          rw [if_pos (beq_iff_eq.2 hmn),
            List.count_eq_zero.2 fun hin => hnot ((flush_sublist p.pending m).subset hin)]
        · rw [if_neg fun he => hmn (eq_of_beq he)]
          exact hflush n hn

theorem Once.posts {p : Proc} (h : Once p.pending) (hp : Posts p mail ev) : Once mail.1 := by
  cases hp with
  | same => exact h
  | caught | interrupts => exact h.sublist List.erase_sublist
  | sent m => exact h.kill

/-- `signal_handled` is the last signal that was caught, and each that was kept was caught or is
pending. -/
structure Account (p : Proc) (hist : List (QueueEv Sig)) : Prop where
  inv : Inv p
  once : Once p.pending
  count : ∀ n, kept n = true →
    hist.count (.sent n) = hist.count (.received n) + p.pending.count n
  handled : p.handled = (allReceived hist).getLast?.elim (-1) Int.ofNat

theorem sends_cases (p : Proc) (n : Sig) : p.sends n = none ∨ p.sends n = some (.sent n) := by
  unfold Proc.sends
  split
  · exact .inl rfl
  · split
    · exact .inl rfl
    · split
      · exact .inr rfl
      · exact .inl rfl

theorem handled_posts {p : Proc} (hp : Posts p mail ev)
    (h : p.handled = (allReceived hist).getLast?.elim (-1) Int.ofNat) :
    mail.2 = (allReceived (hist ++ ev.toList)).getLast?.elim (-1) Int.ofNat := by
  cases hp with
  | same | interrupts => rwa [Option.toList_none, List.append_nil]
  | caught hn =>
    rw [Option.toList_some, allReceived_received, List.getLast?_concat]
    rfl
  | sent n =>
    rcases sends_cases p n with hn | hn
    · rwa [hn, Option.toList_none, List.append_nil]
    · rwa [hn, Option.toList_some, allReceived_sent]

theorem Account.step (h : Account p hist) (he : p.tooEarly e = false) :
    Account (p.step opt e) (hist ++ (p.event e).toList) := by
  have hp := step_posts opt p e
  refine ⟨h.inv.step he, h.once.posts hp, ?_, handled_posts hp h.handled⟩
  intro n hn
  have hcount := count_posts h.inv hn hp
  have hold := h.count n hn
  rw [List.count_append, List.count_append]
  change (p.step opt e).pending.count n + _ = _ at hcount
  omega

/-- As long as nothing is sent to the process before it has blocked the signals, an asynchronous
signal interrupts no thread and does not kill the process. Each that became pending, but for stop
signals and SIGCONT, was caught by `signal_handler` or is pending still. -/
theorem tsig_signals_caught (hes : saw Proc.tooEarly (Proc.step opt) .start es = false) :
    let p := run (Proc.step opt) .start es
    let hist := trace Proc.event (Proc.step opt) .start es
    (∀ n, kept n = true →
      hist.count (.sent n) = hist.count (.received n) + p.pending.count n ∧
        (n < 32 → p.pending.count n ≤ 1)) ∧
      p.handled = (allReceived hist).getLast?.elim (-1) Int.ofNat ∧
      (∀ t th, p.threads t = some th → ∀ h ∈ th.handling, h.1 ∈ synchronous) ∧
      ∀ n, p.status = .killed n → sigset n = false := by
  intro p hist
  have hstart : Account .start [] := ⟨.start, fun _ _ => Nat.zero_le 1, fun _ _ => rfl, rfl⟩
  have hrun : Account p hist := run_trace_of Account (fun _ _ _ he h => h.step he) hstart hes
  exact ⟨fun n hn => ⟨hrun.count n hn, hrun.once n⟩, hrun.handled,
    fun t th ht => (hrun.inv.threads t th ht).2, hrun.inv.killed⟩

/-- Two SIGINTs and a SIGTERM while the process sets itself up, and what `sigwait` makes of them. -/
theorem tsig_signals_caught_sigint :
    let ok := Ev.step .main (.done 0)
    let es := [ok, ok, .kill 2, .kill 2, .kill 15, ok, ok, ok, ok, ok, ok, ok, ok, ok,
      .deliver .main 2, .sigwait 2]
    let p := run (Proc.step (some 0)) .start es
    p.handled = 2 ∧ p.pending = [15] ∧ p.status = .running ∧
      (trace Proc.event (Proc.step (some 0)) .start es).count (.sent 15) =
        (trace Proc.event (Proc.step (some 0)) .start es).count (.received 15) +
          p.pending.count 15 := by
  intro ok es p
  have hes : saw Proc.tooEarly (Proc.step (some 0)) .start es = false := by decide
  exact ⟨by decide, by decide, by decide, ((tsig_signals_caught hes).1 15 (by decide)).1⟩

end SysPrg.TSig
