import SysPrg.Run
import SysPrg.Kernel
import SysPrg.Descriptors

namespace SysPrg.PreThread
set_option autoImplicit true

def threadsCount : Nat := 10

def fileToTransfer : String := "/etc/passwd"

def sIfreg : Nat := 0x8000

structure Stat where
  mode : Nat
  size : Int
  deriving DecidableEq, Repr

inductive Desc where
  | std
  | listener
  | conn
  | file
  deriving DecidableEq, Repr

/-- The reason that `handle_client` gives for a return value of `transfer_file_contents`. -/
def failure (ret : Nat) : String :=
  match ret with
  | 1 => " failed; reason: stat(2) failed\n"
  | 2 => " failed; reason: file isn't a regular file\n"
  | 3 => " failed; reason: empty file\n"
  | 4 => " failed; reason: open failed (permissions?)\n"
  | 5 => " failed; reason: sendfile(2) failed\n"
  | n => ": unknown issue (" ++ toString n ++ ")\n"

/-- The message of `handle_client`: `snprintf` into 512 bytes, and what `strncat` adds. -/
def message (prgName : String) (thrdnum ret : Nat) : String :=
  String.ofList ((prgName ++ ":handle_client():thread# " ++ toString thrdnum ++
    ": transferring file " ++ fileToTransfer ++ failure ret).toList.take 511) ++
    "Lookup server log for details.\n"

/-- The calls of `enter_server_loop`; from `stat` to `done` the thread is in `handle_client`, with
its `client_socket` and, in `transfer_file_contents`, its `fd`. -/
inductive Pc where
  | lock
  | accept
  | stat (sock : Nat)
  | open (sock : Nat) (filesz : Int)
  | sendfile (sock fd : Nat) (filesz : Int)
  | close (sock fd : Nat)
  | send (sock : Nat) (msg : String)
  | done (sock : Nat)
  | gone
  deriving DecidableEq, Repr

/-- The threads share the descriptors and the mutex `mlock`. `file` is what is to be found behind
`FILE_TO_TRANSFER`. -/
structure Sys (n : Nat) where
  fds : Fds Desc
  mlock : Option (Fin n)
  file : Option Stat
  pc : Fin n → Pc
  fatal : Option (String × Errno)

inductive Ev (n : Nat) where
  | thread (p : Fin n) (a : Answer)
  | file (f : Option Stat)
  deriving DecidableEq, Repr

def Sys.start (f : Option Stat) : Sys n :=
  ⟨[some .std, some .std, some .std, some .listener], none, f, fun _ => .lock, none⟩

def Sys.goto (s : Sys n) (p : Fin n) (pc : Pc) : Sys n := { s with pc := Function.update s.pc p pc }

/-- `fatal_error`: the whole process exits. -/
def Sys.fatalError (s : Sys n) (syscall : String) (e : Errno) : Sys n :=
  { s with fds := [], mlock := none, pc := fun _ => .gone, fatal := some (syscall, e) }

/-- A thread's call at `pc`. The accepted socket, the unlocked mutex and the call of `handle_client`
are one step, as no other thread is concerned. -/
def Sys.call (prgName : String) (s : Sys n) (p : Fin n) : Pc → Answer → Sys n
  | .lock, _ =>
    match s.mlock with
    | none => Sys.goto { s with mlock := some p } p .accept
    | some _ => s
  | .accept, .fail e => s.fatalError "accept()" e
  | .accept, .done _ =>
    Sys.goto { s with fds := fdInstall .conn s.fds, mlock := none } p (.stat (fdLowest s.fds))
  | .stat sock, .fail _ => s.goto p (.send sock (message prgName p 1))
  | .stat sock, .done _ =>
    match s.file with
    | none => s.goto p (.send sock (message prgName p 1))
    | some statb =>
      if statb.mode &&& sIfreg = 0 then s.goto p (.send sock (message prgName p 2))
      else if statb.size ≤ 0 then s.goto p (.send sock (message prgName p 3))
      else s.goto p (.open sock statb.size)
  | .open sock _, .fail _ => s.goto p (.send sock (message prgName p 4))
  | .open sock filesz, .done _ =>
    match s.file with
    | none => s.goto p (.send sock (message prgName p 4))
    | some _ =>
      Sys.goto { s with fds := fdInstall .file s.fds } p (.sendfile sock (fdLowest s.fds) filesz)
  | .sendfile sock _ _, .fail _ => s.goto p (.send sock (message prgName p 5))
  | .sendfile sock fd _, .done _ => s.goto p (.close sock fd)
  | .close sock fd, _ => Sys.goto { s with fds := fdClose s.fds fd } p (.done sock)
  | .send _ _, .fail e => s.fatalError "send(2) failed" e
  | .send sock _, .done _ => s.goto p (.done sock)
  -- Nothing closes the socket on the way back to `accept`.
  | .done _, _ => s.goto p .lock
  | .gone, _ => s

def Sys.step (prgName : String) (s : Sys n) : Ev n → Sys n
  | .thread p a => s.call prgName p (s.pc p) a
  | .file f => { s with file := f }

def Pc.sock : Pc → Option Nat
  | .stat sock | .open sock _ | .sendfile sock _ _ | .close sock _ | .send sock _ | .done sock =>
    some sock
  | _ => none

def Pc.fd : Pc → Option Nat
  | .sendfile _ fd _ | .close _ fd => some fd
  | _ => none

def Pc.returns : Pc → Bool
  | .done _ => true
  | _ => false

def Pc.sendfileFails : Pc → Answer → Bool
  | .sendfile _ _ _, .fail _ => true
  | _, _ => false

def leaves (s : Sys n) : Ev n → Bool
  | .thread p a => (s.pc p).returns || (s.pc p).sendfileFails a
  | .file _ => false

def Desc.tracked : Desc → Bool
  | .conn | .file => true
  | _ => false

def Pc.own (pc : Pc) : Desc → Option Nat
  | .conn => pc.sock
  | .file => pc.fd
  | _ => none

def Sys.held (s : Sys n) : Held (Fin n) Desc :=
  .ofTable Desc.tracked s.fds (fun p => (s.pc p).own)

theorem start_sound (f : Option Stat) : (Sys.start f : Sys n).held.Sound where
  live p k fd h := by cases k <;> cases h
  alone p q k fd h := by cases k <;> cases h

theorem start_owned (f : Option Stat) : (Sys.start f : Sys n).held.Owned := by
  intro fd k h
  match fd with
  | 0 | 1 | 2 | 3 => cases h
  | fd + 4 => cases h

section
variable {s t : Sys n} {p : Fin n} {pc pc' : Pc}

theorem own_goto_sock (hp : s.pc p = pc) (hfd : pc'.fd = pc.fd) :
    (fun q => (Function.update s.pc p pc' q).own) =
      Held.give (fun q => (s.pc q).own) p .conn pc'.sock := by
  apply Held.give_update
  intro j hj
  rw [hp]
  cases j with
  | conn => exact (hj rfl).elim
  | file => exact hfd
  | std | listener => rfl

theorem own_goto_fd (hp : s.pc p = pc) (hsock : pc'.sock = pc.sock) :
    (fun q => (Function.update s.pc p pc' q).own) =
      Held.give (fun q => (s.pc q).own) p .file pc'.fd := by
  apply Held.give_update
  intro j hj
  rw [hp]
  cases j with
  | conn => exact hsock
  | file => exact (hj rfl).elim
  | std | listener => rfl

theorem change_goto (hfds : t.fds = s.fds) (ht : t.pc = s.pc) (hp : s.pc p = pc)
    (hsock : pc'.sock = pc.sock) (hfd : pc'.fd = pc.fd) :
    Held.Change s.held false (t.goto p pc').held := by
  have hown : (fun q => (Function.update s.pc p pc' q).own) = fun q => (s.pc q).own := by
    rw [own_goto_sock hp hfd]
    apply Held.give_eq_self
    rw [hp, hsock]
    rfl
  unfold Sys.held
  simp only [Sys.goto, hfds, ht, hown]
  exact .keep _

theorem change_fatal (s : Sys n) (syscall : String) (e : Errno) :
    Held.Change s.held false (s.fatalError syscall e).held := by
  apply Held.change_exit
  funext p k
  cases k <;> rfl

/-- A thread leaves a descriptor open behind where it returns from `handle_client`, where its
`sendfile` fails, and nowhere else. -/
theorem call_change (prgName : String) (hp : s.pc p = pc) (a : Answer) :
    Held.Change s.held (pc.returns || pc.sendfileFails a) (s.call prgName p pc a).held := by
  have hown (k : Desc) : (s.pc p).own k = pc.own k := congrArg (fun pc => pc.own k) hp
  cases pc with
  | lock =>
    obtain ⟨fds, mlock, file, pcs, fatal⟩ := s
    cases mlock with
    | none => exact change_goto rfl rfl hp rfl rfl
    | some q => exact .keep _
  | accept =>
    cases a with
    | fail e => exact change_fatal s _ e
    | done _ => exact Held.change_install rfl (hown .conn) (own_goto_sock hp rfl)
  | stat sock =>
    cases a with
    | fail e => exact change_goto rfl rfl hp rfl rfl
    | done _ =>
      obtain ⟨fds, mlock, file, pcs, fatal⟩ := s
      cases file with
      | none => exact change_goto rfl rfl hp rfl rfl
      | some statb =>
        simp only [Sys.call]
        repeat' split
        all_goals exact change_goto rfl rfl hp rfl rfl
  | «open» sock filesz =>
    cases a with
    | fail e => exact change_goto rfl rfl hp rfl rfl
    | done _ =>
      obtain ⟨fds, mlock, file, pcs, fatal⟩ := s
      cases file with
      | none => exact change_goto rfl rfl hp rfl rfl
      | some statb => exact Held.change_install rfl (hown .file) (own_goto_fd hp rfl)
  | sendfile sock fd filesz =>
    cases a with
    | fail e => exact Held.change_leave (hown .file) (own_goto_fd hp rfl)
    | done _ => exact change_goto rfl rfl hp rfl rfl
  | close sock fd => exact Held.change_close (hown .file) (own_goto_fd hp rfl)
  | send sock msg =>
    cases a with
    | fail e => exact change_fatal s _ e
    | done _ => exact change_goto rfl rfl hp rfl rfl
  | done sock => exact Held.change_leave (hown .conn) (own_goto_sock hp rfl)
  | gone => exact .keep _

end

theorem step_change (prgName : String) (s : Sys n) (e : Ev n) :
    Held.Change s.held (leaves s e) (s.step prgName e).held := by
  cases e with
  | file f => exact .keep _
  | thread p a => exact call_change prgName rfl a

theorem owned_iff (s : Sys n) : s.held.Owned ↔
    (∀ fd, fdGet s.fds fd = some .conn → ∃ p, (s.pc p).sock = some fd) ∧
      ∀ fd, fdGet s.fds fd = some .file → ∃ p, (s.pc p).fd = some fd := by
  constructor
  · intro h
    constructor
    · intro fd hfd
      exact h fd .conn ((Held.ofTable_tab rfl _).2 hfd)
    · intro fd hfd
      exact h fd .file ((Held.ofTable_tab rfl _).2 hfd)
  · rintro ⟨hconn, hfile⟩ fd k hk
    obtain ⟨hget, htracked⟩ := Option.filter_eq_some_iff.1 hk
    cases k with
    | conn => exact hconn fd hget
    | file => exact hfile fd hget
    | std | listener => cases htracked

theorem open_card_le {s : Sys n} (ho : s.held.Owned) (hk : Desc.tracked k = true) :
    (fdOpen s.fds k).card ≤ n := by
  have hcard := ho.card_le (k := k) (s := fdOpen s.fds k)
    (fun fd hfd => (Held.ofTable_tab hk _).2 (mem_fdOpen.1 hfd))
  rwa [Fintype.card_fin] at hcard

theorem sockets_served_iff (prgName : String) (f : Option Stat) (es : List (Ev n)) :
    ((∀ pre, pre <+: es →
      (∀ fd, fdGet (run (Sys.step prgName) (.start f) pre).fds fd = some .conn →
        ∃ p, ((run (Sys.step prgName) (.start f) pre).pc p).sock = some fd) ∧
      ∀ fd, fdGet (run (Sys.step prgName) (.start f) pre).fds fd = some .file →
        ∃ p, ((run (Sys.step prgName) (.start f) pre).pc p).fd = some fd) ↔
      saw leaves (Sys.step prgName) (.start f) es = false) ∧
    (saw leaves (Sys.step prgName) (.start f) es = false → ∀ pre, pre <+: es →
      (fdOpen (run (Sys.step prgName) (.start f) pre).fds .conn).card ≤ n ∧
      (fdOpen (run (Sys.step prgName) (.start f) pre).fds .file).card ≤ n) := by
  have hiff := Held.owned_run_iff (step_change prgName) (start_sound f) (start_owned f) es
  constructor
  · rw [← hiff]
    simp only [owned_iff]
  · intro hl pre hpre
    have ho := hiff.2 hl pre hpre
    exact ⟨open_card_le ho rfl, open_card_le ho rfl⟩

/-- Of ten threads one has served eleven clients, and nobody is in `handle_client`. -/
theorem sockets_left_open :
    (fdOpen (run (Sys.step "svr") (.start (some ⟨0o100644, 5⟩) : Sys threadsCount)
      (List.replicate 77 (.thread ⟨0, by decide⟩ (.done 0)))).fds .conn).card = 11 ∧
    ∀ p, ((run (Sys.step "svr") (.start (some ⟨0o100644, 5⟩) : Sys threadsCount)
      (List.replicate 77 (.thread ⟨0, by decide⟩ (.done 0)))).pc p).sock = none := by
  decide +kernel

end SysPrg.PreThread
