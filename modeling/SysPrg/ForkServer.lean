import SysPrg.Run
import SysPrg.Kernel
import SysPrg.Descriptors

namespace SysPrg.ForkServer
set_option autoImplicit true

inductive Server where
  | cpudtlTstsvr
  | sfingr
  | unixSvr
  deriving DecidableEq, Repr

/-- What the server prints and exits with when `accept` fails: by `ErrExit`, `err_exit`, or
`perror` and `exit`. -/
def Server.acceptError (prg : String) : Server → String × Int
  | .cpudtlTstsvr | .sfingr =>
    (String.ofList ((prg ++ ": socket accept error").toList.take 299), 5)
  | .unixSvr => ("socket accept error", 1)

inductive Desc where
  | std
  | listener
  | conn (c : Nat)
  deriving DecidableEq, Repr

/-- The calls of the accept loop, with the connection accepted last and its `newsd`. -/
inductive Pc where
  | accept
  | fork (c newsd : Nat)
  | close (c newsd : Nat)
  | exited (err : String) (status : Int)
  deriving DecidableEq, Repr

inductive ChildPc where
  | closeSd
  | process
  | exited
  deriving DecidableEq, Repr

/-- A child server, with the descriptors it has from its parent, and the connection and the `newsd`
it was forked for. -/
structure Child where
  conn : Nat
  newsd : Nat
  fds : Fds Desc
  pc : ChildPc
  deriving DecidableEq, Repr

structure Sys where
  fds : Fds Desc
  pc : Pc
  accepted : Nat
  children : List Child
  deriving DecidableEq, Repr

inductive Ev where
  | parent (a : Answer)
  | child (c : Nat)
  deriving DecidableEq, Repr

/-- The listening socket, the first descriptor after the standard ones. -/
def sd : Nat := 3

def Sys.start : Sys := ⟨[some .std, some .std, some .std, some .listener], .accept, 0, []⟩

def Sys.parent (srv : Server) (prg : String) (s : Sys) (a : Answer) : Sys :=
  match s.pc, a with
  | .accept, .fail _ =>
    { s with fds := [], pc := .exited (srv.acceptError prg).1 (srv.acceptError prg).2 }
  | .accept, .done _ =>
    { s with fds := fdInstall (.conn s.accepted) s.fds, accepted := s.accepted + 1,
             pc := .fork s.accepted (fdLowest s.fds) }
  -- `newsd` stays open: only the arm of the parent closes it.
  | .fork _ _, .fail _ => { s with pc := .accept }
  | .fork c newsd, .done _ =>
    { s with children := s.children ++ [⟨c, newsd, s.fds, .closeSd⟩], pc := .close c newsd }
  | .close _ newsd, _ => { s with fds := fdClose s.fds newsd, pc := .accept }
  | .exited _ _, _ => s

def Child.step (ch : Child) : Child :=
  match ch.pc with
  | .closeSd => { ch with fds := fdClose ch.fds sd, pc := .process }
  | .process => { ch with fds := [], pc := .exited }
  | .exited => ch

def Sys.step (srv : Server) (prg : String) (s : Sys) : Ev → Sys
  | .parent a => s.parent srv prg a
  | .child c =>
    { s with children := s.children.map (fun ch => if ch.conn = c then ch.step else ch) }

def forkFails (s : Sys) : Ev → Bool
  | .parent (.fail _) =>
    match s.pc with
    | .fork _ _ => true
    | _ => false
  | _ => false

/-- A child was forked for the connection, and has it until it exits. -/
def Sys.Handed (s : Sys) (c : Nat) : Prop :=
  ∃ ch ∈ s.children, ch.conn = c ∧ (ch.pc = .exited ∨ fdGet ch.fds ch.newsd = some (.conn c))

def Sys.Closed (s : Sys) (c : Nat) : Prop :=
  (∀ fd, fdGet s.fds fd ≠ some (.conn c)) ∧
    ∀ ch ∈ s.children, ∀ fd, fdGet ch.fds fd ≠ some (.conn c)

def Desc.tracked : Desc → Bool
  | .conn _ => true
  | _ => false

def Pc.client : Pc → Option (Nat × Nat)
  | .fork c newsd | .close c newsd => some (c, newsd)
  | _ => none

def Pc.own (pc : Pc) (k : Desc) : Option Nat :=
  match pc.client with
  | some (c, newsd) => if k = .conn c then some newsd else none
  | none => none

def Sys.held (s : Sys) : Held Unit Desc := .ofTable Desc.tracked s.fds (fun _ => s.pc.own)

theorem own_accept {pc pc' : Pc} (h : pc.client = none) (h' : pc'.client = some (c, newsd)) :
    (fun _ : Unit => pc'.own) = Held.give (fun _ => pc.own) () (.conn c) (some newsd) := by
  funext _ k
  simp only [Pc.own, Held.give, h, h', true_and]

theorem own_leave {pc pc' : Pc} (h : pc.client = some (c, newsd)) (h' : pc'.client = none) :
    (fun _ : Unit => pc'.own) = Held.give (fun _ => pc.own) () (.conn c) none := by
  funext _ k
  simp only [Pc.own, Held.give, h, h', true_and]
  split
  · rfl
  · rfl

theorem own_client {pc : Pc} (h : pc.client = some (c, newsd)) : pc.own (.conn c) = some newsd := by
  simp only [Pc.own, h, if_true]

theorem step_change (srv : Server) (prg : String) (s : Sys) (e : Ev) :
    Held.Change s.held (forkFails s e) (s.step srv prg e).held := by
  cases e with
  | child i => exact .keep _
  | parent a =>
    obtain ⟨fds, pc, accepted, children⟩ := s
    cases pc with
    | accept =>
      cases a with
      | fail e => exact Held.change_exit rfl
      | done _ => exact Held.change_install rfl rfl (own_accept rfl rfl)
    | fork c newsd =>
      cases a with
      | fail e => exact Held.change_leave (own_client rfl) (own_leave rfl rfl)
      | done _ => exact .keep _
    | close c newsd =>
      have hclose : Held.Change (Sys.held ⟨fds, .close c newsd, accepted, children⟩) false
          (Sys.held ⟨fdClose fds newsd, .accept, accepted, children⟩) :=
        Held.change_close (own_client rfl) (own_leave rfl rfl)
      cases a <;> exact hclose
    | exited err status => cases a <;> exact .keep _

def Listening (fds : Fds Desc) : Prop := ∀ fd, fdGet fds fd = some .listener ↔ fd = sd

theorem Listening.install (h : Listening fds) (c : Nat) : Listening (fdInstall (.conn c) fds) := by
  intro fd
  rw [fdGet_install]
  split
  · next hfd =>
    subst hfd
    constructor
    · intro hc
      cases hc
    · intro hsd
      have hget := (h _).2 hsd
      rw [fdGet_lowest] at hget
      cases hget
  · exact h fd

theorem Listening.close (h : Listening fds) (hc : fdGet fds newsd = some (.conn c)) :
    Listening (fdClose fds newsd) := by
  intro fd
  rw [fdGet_close]
  split
  · next hfd =>
    subst hfd
    constructor
    · intro hn
      cases hn
    · intro hsd
      rw [(h fd).2 hsd] at hc
      cases hc
  · exact h fd

/-- A child has its connection, not at the number of the listening socket. -/
structure Child.Sound (ch : Child) : Prop where
  has : ch.pc = .exited ∨ fdGet ch.fds ch.newsd = some (.conn ch.conn)
  apart : ch.newsd ≠ sd

theorem Child.Sound.step {ch : Child} (h : ch.Sound) : ch.step.Sound := by
  obtain ⟨conn, newsd, fds, pc⟩ := ch
  obtain ⟨hhas, hne⟩ := h
  cases pc with
  | closeSd =>
    refine ⟨.inr ?_, hne⟩
    rcases hhas with hx | hget
    · cases hx
    · exact (fdGet_close ..).trans ((if_neg hne).trans hget)
  | process => exact ⟨.inl rfl, hne⟩
  | exited => exact ⟨.inl rfl, hne⟩

theorem Child.step_conn (ch : Child) : ch.step.conn = ch.conn := by
  unfold Child.step
  split <;> rfl

/-- All but a connection that the parent is just about to fork for has a child. -/
structure Sys.Sound (s : Sys) : Prop where
  held : s.held.Sound
  owned : s.held.Owned
  listening : (∀ err status, s.pc ≠ .exited err status) → Listening s.fds
  children : ∀ ch ∈ s.children, ch.Sound
  forked : ∀ c, c < s.accepted → (∃ newsd, s.pc = .fork c newsd) ∨ ∃ ch ∈ s.children, ch.conn = c

theorem start_sound : Sys.start.Sound where
  held := ⟨fun _ _ _ h => (by cases h), fun _ _ _ _ h => (by cases h)⟩
  owned fd k h := by
    match fd with
    | 0 | 1 | 2 | 3 => cases h
    | fd + 4 => cases h
  listening _ fd := by
    match fd with
    | 0 | 1 | 2 | 3 => decide
    | fd + 4 => exact ⟨fun h => (by cases h), fun h => (by cases h)⟩
  children ch hch := by cases hch
  forked c hc := (Nat.not_lt_zero c hc).elim

theorem Sys.Sound.get_newsd {s : Sys} (h : s.Sound) (hpc : s.pc.client = some (c, newsd)) :
    fdGet s.fds newsd = some (.conn c) :=
  (Held.ofTable_tab rfl _).1 (h.held.live () (.conn c) newsd (own_client hpc))

theorem Sys.Sound.has_child {s : Sys} (h : s.Sound) (hpc : ∀ c newsd, s.pc ≠ .fork c newsd)
    (c : Nat) (hc : c < s.accepted) : ∃ ch ∈ s.children, ch.conn = c := by
  rcases h.forked c hc with ⟨newsd, hfork⟩ | hch
  · exact (hpc c newsd hfork).elim
  · exact hch

theorem Sys.Sound.child {s : Sys} (h : s.Sound) (srv : Server) (prg : String) (c : Nat) :
    (s.step srv prg (.child c)).Sound := by
  refine ⟨h.held, h.owned, h.listening, ?_, ?_⟩
  · intro ch' hch'
    obtain ⟨ch, hch, rfl⟩ := List.mem_map.1 hch'
    split
    · exact (h.children ch hch).step
    · exact h.children ch hch
  · intro c' hc'
    rcases h.forked c' hc' with hpc | ⟨ch, hch, hconn⟩
    · exact .inl hpc
    · refine .inr ⟨_, List.mem_map_of_mem hch, ?_⟩
      split
      · exact ch.step_conn.trans hconn
      · exact hconn

theorem Sys.Sound.parent {s : Sys} (h : s.Sound) (srv : Server) (prg : String) (a : Answer)
    (he : forkFails s (.parent a) = false) : (s.step srv prg (.parent a)).Sound := by
  have hc := step_change srv prg s (.parent a)
  have hheld := hc.sound h.held
  have howned := (hc.owned_iff h.held h.owned).2 he
  obtain ⟨fds, pc, accepted, children⟩ := s
  cases pc with
  | accept =>
    cases a with
    | fail e =>
      exact ⟨hheld, howned, fun hx => (hx _ _ rfl).elim, h.children,
        fun c hc => .inr (h.has_child (fun _ _ hx => by cases hx) c hc)⟩
    | done _ =>
      refine ⟨hheld, howned, fun _ => (h.listening (fun _ _ hx => by cases hx)).install accepted,
        h.children, ?_⟩
      intro c hc
      rcases Nat.lt_succ_iff_lt_or_eq.1 hc with hlt | rfl
      · exact .inr (h.has_child (fun _ _ hx => by cases hx) c hlt)
      · exact .inl ⟨_, rfl⟩
  | fork c newsd =>
    cases a with
    | fail e => cases he
    | done _ =>
      have hget : fdGet fds newsd = some (.conn c) := h.get_newsd rfl
      have hlisten : Listening fds := h.listening (fun _ _ hx => by cases hx)
      have hne : newsd ≠ sd := by
        intro hsd
        rw [(hlisten newsd).2 hsd] at hget
        cases hget
      refine ⟨hheld, howned, fun _ => hlisten, ?_, ?_⟩
      · intro ch hch
        rcases List.mem_append.1 hch with hch | hch
        · exact h.children ch hch
        · rw [List.mem_singleton.1 hch]
          exact ⟨.inr hget, hne⟩
      · intro c' hc'
        rcases h.forked c' hc' with ⟨_, hpc⟩ | ⟨ch, hch, hconn⟩
        · cases hpc
          exact .inr ⟨_, List.mem_append_right _ (List.mem_singleton_self _), rfl⟩
        · exact .inr ⟨ch, List.mem_append_left _ hch, hconn⟩
  | close c newsd =>
    have hget : fdGet fds newsd = some (.conn c) := h.get_newsd rfl
    have hlisten : Listening fds := h.listening (fun _ _ hx => by cases hx)
    have hforked := h.has_child (fun _ _ hx => by cases hx)
    cases a <;>
      exact ⟨hheld, howned, fun _ => hlisten.close hget, h.children,
        fun c' hc' => .inr (hforked c' hc')⟩
  | exited err status => cases a <;> exact h

theorem Sys.Sound.step {s : Sys} (h : s.Sound) (srv : Server) (prg : String)
    (he : forkFails s e = false) : (s.step srv prg e).Sound := by
  cases e with
  | parent a => exact h.parent srv prg a he
  | child c => exact h.child srv prg c

theorem Sys.Sound.no_client {s : Sys} (h : s.Sound) (hpc : s.pc = .accept) (fd c : Nat) :
    fdGet s.fds fd ≠ some (.conn c) := by
  intro hfd
  obtain ⟨_, hown⟩ := h.owned fd (.conn c) ((Held.ofTable_tab rfl _).2 hfd)
  simp only [Sys.held, Held.ofTable, hpc] at hown
  cases hown

theorem Sys.Sound.handed {s : Sys} (h : s.Sound) (hpc : s.pc = .accept) (c : Nat)
    (hc : c < s.accepted) : s.Handed c := by
  obtain ⟨ch, hch, rfl⟩ := h.has_child (fun _ _ hx => by cases hpc.symm.trans hx) c hc
  exact ⟨ch, hch, rfl, (h.children ch hch).has⟩

theorem fork_fails_leaks {s : Sys} (h : s.Sound) (srv : Server) (prg : String)
    (he : forkFails s e = true) : (s.step srv prg e).pc = .accept ∧
      ∃ fd c, fdGet (s.step srv prg e).fds fd = some (.conn c) := by
  cases e with
  | child c => cases he
  | parent a =>
    cases a with
    | done k => cases he
    | fail err =>
      obtain ⟨fds, pc, accepted, children⟩ := s
      cases pc with
      | fork c newsd => exact ⟨rfl, newsd, c, h.get_newsd rfl⟩
      | accept | close | exited => cases he

theorem parent_keeps_listener_iff (srv : Server) (prg : String) (es : List Ev) :
    (∀ pre, pre <+: es → (run (Sys.step srv prg) .start pre).pc = .accept →
      (∀ fd, fdGet (run (Sys.step srv prg) .start pre).fds fd = some .listener ↔ fd = sd) ∧
      (∀ fd c, fdGet (run (Sys.step srv prg) .start pre).fds fd ≠ some (.conn c)) ∧
      ∀ c, c < (run (Sys.step srv prg) .start pre).accepted →
        (run (Sys.step srv prg) .start pre).Handed c ∨
          (run (Sys.step srv prg) .start pre).Closed c) ↔
    saw forkFails (Sys.step srv prg) .start es = false := by
  apply every_state_iff Sys.Sound (fun s => s.pc = .accept →
    (∀ fd, fdGet s.fds fd = some .listener ↔ fd = sd) ∧
    (∀ fd c, fdGet s.fds fd ≠ some (.conn c)) ∧
    ∀ c, c < s.accepted → s.Handed c ∨ s.Closed c) _ _ _ start_sound es
  · intro s h hpc
    refine ⟨h.listening ?_, h.no_client hpc, fun c hc => .inl (h.handed hpc c hc)⟩
    intro err status hx
    cases hpc.symm.trans hx
  · intro s e he h
    exact h.step srv prg he
  · intro s e he h hall
    obtain ⟨hpc, fd, c, hfd⟩ := fork_fails_leaks h srv prg he
    exact (hall hpc).2.1 fd c hfd

/-- The second `fork` fails: the parent waits for the third client with the second one's socket. -/
theorem fork_failure_leaks_socket :
    [Server.cpudtlTstsvr, .sfingr, .unixSvr].map (fun srv =>
      let s := run (Sys.step srv "svr") .start [.parent (.done 0), .parent (.done 0),
        .parent (.done 0), .parent (.done 0), .parent (.fail .eagain)]
      (s.pc, fdGet s.fds 4, s.children.map Child.conn)) =
    List.replicate 3 (.accept, some (.conn 1), [0]) := by
  decide +kernel

end SysPrg.ForkServer
