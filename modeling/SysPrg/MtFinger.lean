import SysPrg.Finger
import SysPrg.Descriptors
import SysPrg.Threads

namespace SysPrg.MtFinger
set_option autoImplicit true

open Finger (Passwd)

def maxbuf : Nat := 512

inductive Desc where
  | std
  | listener
  | conn
  deriving DecidableEq, Repr

inductive Obj where
  | username
  | reply
  | passwd
  deriving DecidableEq, Repr

/-- Where a thread is in `process_client`. In `errExit` it is in `thrd_err_exit`, after a failed
`read`, or a failed `write` of what it had `found`. -/
inductive Pc where
  | mallocUsername (sd : Nat)
  | read (sd : Nat)
  | mallocReply (sd : Nat) (username : CString)
  | mallocPasswd (sd : Nat) (username : CString)
  | getpwnamR (sd : Nat) (username : CString)
  | write (sd : Nat) (reply : CString) (found : Bool)
  | close (sd : Nat) (found : Bool)
  | errExit (sd : Nat) (err : String) (found : Option Bool)
  | exited (value : String)
  | overrun (sd : Nat)
  deriving DecidableEq

inductive Main where
  | accept
  | create (newsd : Nat)
  | detach
  | exited (err : Option String) (status : Int)
  | killed
  deriving DecidableEq, Repr

structure Cfg where
  prg : CString
  getpwnam : CString → Option Passwd

/-- The threads share the descriptors and the heap. `peer` is the connection that is behind a
descriptor, `inp` and `out` are what goes over a connection, and `next` of them were made so far. -/
structure Sys where
  fds : Fds Desc
  peer : Nat → Nat
  inp : Nat → Stream
  out : Nat → Stream
  next : Nat
  backlog : List Nat
  main : Main
  threads : List Pc
  heap : List Obj

inductive Ev where
  | main (a : Answer)
  | thread (t : Nat) (a : Answer)
  | connect
  | clientSend (c : Nat) (bs : Bytes)
  | clientShut (c : Nat)
  deriving DecidableEq, Repr

def Sys.start : Sys :=
  ⟨[some .std, some .std, some .std, some .listener], fun _ => 0, fun _ => .fresh, fun _ => .fresh,
    0, [], .accept, [], []⟩

/-- The `username` after `username[n] = '\0'`, which with `MAXBUF` bytes read is no longer in the
buffer. -/
def terminated (bs : Bytes) : Option CString :=
  if bs.length < maxbuf then some (.ofBuffer bs) else none

/-- A string constant, up to its terminator. -/
def text (s : String) : CString := .ofBuffer (s.toList.map fun c => UInt8.ofNat c.toNat)

def unableReply (prg username : CString) : CString :=
  .snprintf (maxbuf - 1) (text "\n" ++ prg ++
    text " is unable to get info for " ++ username ++ text "\n")

def infoReply (p : Passwd) : CString :=
  .snprintf (maxbuf - 1) (text "\tUsername: " ++ p.name ++
    text "\n\t(encrypted) password: " ++ p.passwd ++
    text "\n\tUID: " ++ .decimal p.uid.toInt32.toInt ++
    text "\n\tGID: " ++ .decimal p.gid.toInt32.toInt ++
    text "\n\tComment/FullName: " ++ p.gecos ++
    text "\n\tHome dir: " ++ p.dir ++
    text "\n\tShell: " ++ p.shell ++ text "\n")

def Pc.has : Pc → List Obj
  | .mallocUsername _ | .exited _ => []
  | .read _ | .mallocReply _ _ | .errExit _ _ none | .overrun _ => [.username]
  | .mallocPasswd _ _ => [.username, .reply]
  | .getpwnamR _ _ => [.username, .reply, .passwd]
  | .write _ _ found | .close _ found | .errExit _ _ (some found) =>
    [.username, .reply] ++ if found then [.passwd] else []

def Sys.goto (s : Sys) (t : Nat) (pc : Pc) : Sys := { s with threads := s.threads.set t pc }

def Sys.malloc (s : Sys) (o : Obj) : Sys := { s with heap := o :: s.heap }

def Sys.free (s : Sys) (os : List Obj) : Sys := { s with heap := s.heap.diff os }

def Sys.ended (s : Sys) (m : Main) : Sys :=
  { s with fds := [], main := m, threads := [], heap := [] }

/-- What `getpwnam_r` leaves in `p`: the entry, or `NULL` also when it fails. -/
def passwdEntry (cfg : Cfg) (username : CString) : Answer → Option Passwd
  | .fail _ => none
  | .done _ => cfg.getpwnam username

def afterRead (sd : Nat) (bs : Bytes) : Pc :=
  match terminated bs with
  | none => .overrun sd
  | some u => .mallocReply sd u

/-- The next call of a thread in `process_client`, with what follows it. -/
def Sys.thread (cfg : Cfg) (s : Sys) (t : Nat) (a : Answer) : Pc → Sys
  | .mallocUsername sd =>
    match a with
    | .fail _ => s.goto t (.exited "enomem")
    | .done _ => (s.malloc .username).goto t (.read sd)
  | .read sd =>
    match a with
    | .fail _ => s.goto t (.errExit sd "socket read error" none)
    | .done k =>
      if fdGet s.fds sd = some .conn then
        match (s.inp (s.peer sd)).recv k maxbuf with
        | none => s
        | some (bs, st) =>
          Sys.goto { s with inp := Function.update s.inp (s.peer sd) st } t (afterRead sd bs)
      else s.goto t (.errExit sd "socket read error" none)
  | .mallocReply sd u =>
    match a with
    | .fail _ => (s.free [.username]).goto t (.exited "1")
    | .done _ => (s.malloc .reply).goto t (.mallocPasswd sd u)
  | .mallocPasswd sd u =>
    match a with
    | .fail _ => (s.free [.username, .reply]).goto t (.exited "1")
    | .done _ => (s.malloc .passwd).goto t (.getpwnamR sd u)
  | .getpwnamR sd u =>
    match passwdEntry cfg u a with
    | none => s.goto t (.write sd (unableReply cfg.prg u) false)
    | some p => s.goto t (.write sd (infoReply p) true)
  | .write sd r found =>
    match a with
    -- `SIGPIPE` is not ignored
    | .fail .epipe => s.ended .killed
    | .fail _ => s.goto t (.errExit sd "socket write error" (some found))
    | .done k =>
      if fdGet s.fds sd = some .conn then
        let st := (s.out (s.peer sd)).send (chunk k r.bytes.length r.bytes)
        Sys.goto { s with out := Function.update s.out (s.peer sd) st } t (.close sd found)
      else s.goto t (.errExit sd "socket write error" (some found))
  | .close sd found =>
    Sys.goto (Sys.free { s with fds := fdClose s.fds sd } (Pc.close sd found).has) t
      (.exited (if found then "0" else "1"))
  | .errExit _ _ _ =>
    match a with
    -- `err_str` is written through whether it was allocated or not
    | .fail _ => s.ended .killed
    | .done _ => s.goto t (.exited "6")
  | .exited _ | .overrun _ => s

def Sys.mainCall (s : Sys) (a : Answer) : Sys :=
  match s.main with
  | .accept =>
    match a with
    | .fail _ => s.ended (.exited (some "socket accept error") 5)
    | .done _ =>
      match s.backlog with
      | [] => s
      | c :: rest =>
        { s with
          fds := fdInstall .conn s.fds
          peer := Function.update s.peer (fdLowest s.fds) c
          backlog := rest
          main := .create (fdLowest s.fds) }
  | .create newsd =>
    match a with
    | .fail _ => { s with main := .detach }
    | .done _ => { s with threads := s.threads ++ [.mallocUsername newsd], main := .detach }
  -- after a failed `pthread_create` this is on what `p2` was before
  | .detach =>
    match a with
    | .fail _ => s.ended (.exited (some "svr: pthread detach failed") 0)
    | .done _ => { s with main := .accept }
  | .exited _ _ | .killed => s

def Sys.step (cfg : Cfg) (s : Sys) : Ev → Sys
  | .main a => s.mainCall a
  | .thread t a =>
    match s.threads[t]? with
    | none => s
    | some pc => s.thread cfg t a pc
  | .connect => { s with next := s.next + 1, backlog := s.backlog ++ [s.next] }
  | .clientSend c bs =>
    if (s.inp c).shut then s
    else { s with inp := Function.update s.inp c ((s.inp c).send bs) }
  | .clientShut c => { s with inp := Function.update s.inp c (s.inp c).close }

def Main.ended : Main → Bool
  | .exited _ _ | .killed => true
  | _ => false

def Pc.sd : Pc → Option Nat
  | .mallocUsername sd | .read sd | .mallocReply sd _ | .mallocPasswd sd _ | .getpwnamR sd _
  | .write sd _ _ | .close sd _ | .errExit sd _ _ | .overrun sd => some sd
  | .exited _ => none

def Main.newsd : Main → Option Nat
  | .create newsd => some newsd
  | _ => none

def failed : Answer → Bool
  | .fail _ => true
  | .done _ => false

/-- Whether the thread's call is its last and leaves the socket open. -/
def Pc.leaves (a : Answer) : Pc → Bool
  | .mallocUsername _ | .mallocReply _ _ | .mallocPasswd _ _ => failed a
  | .errExit _ _ _ => !failed a
  | _ => false

def Pc.loses (cfg : Cfg) (a : Answer) (pc : Pc) : List Obj :=
  match pc with
  | .getpwnamR _ u => if (passwdEntry cfg u a).isNone then [.passwd] else []
  | .errExit _ _ _ => if failed a then [] else pc.has
  | _ => []

def leaves (s : Sys) : Ev → Bool
  | .main a => s.main.newsd.isSome && failed a
  | .thread t a => (s.threads[t]?.map (Pc.leaves a)).getD false
  | _ => false

def loses (cfg : Cfg) (o : Obj) (s : Sys) : Ev → Bool
  | .thread t a => ((s.threads[t]?.map (Pc.loses cfg a)).getD []).contains o
  | _ => false

def Pc.misses (a : Answer) : Pc → Bool
  | .getpwnamR _ _ => failed a
  | _ => false

/-- What may be replied to a client that asks for the user, whose lookup may have failed. -/
def Answers (cfg : Cfg) (missed : Prop) (u r : CString) : Prop :=
  r = unableReply cfg.prg u ∧ (cfg.getpwnam u = none ∨ missed) ∨
    ∃ p, cfg.getpwnam u = some p ∧ r = infoReply p

/-- What the thread knows of what has come from its client and what has gone to it. -/
def Pc.Knows (cfg : Cfg) (missed : Prop) (got sent : Bytes) : Pc → Prop
  | .mallocUsername _ | .read _ => got = [] ∧ sent = []
  | .mallocReply _ u | .mallocPasswd _ u | .getpwnamR _ u => terminated got = some u ∧ sent = []
  | .write _ r _ => sent = [] ∧ ∃ u, terminated got = some u ∧ Answers cfg missed u r
  | .close _ _ | .errExit _ _ _ | .exited _ | .overrun _ => True

/-- What a call of a thread can do, whether it leaves the socket open behind, and what it loses. -/
inductive Acts (cfg : Cfg) (s : Sys) (t : Nat) (pc : Pc) (miss : Bool) :
    Sys → Bool → List Obj → Prop where
  | idle : Acts cfg s t pc miss s false []
  | alloc {pc' : Pc} (hsd : pc.sd = some sd) (hsd' : pc'.sd = some sd)
      (hhas : pc'.has.Perm (o :: pc.has))
      (hknows : ∀ (missed : Prop) got sent, (miss = true → missed) →
        pc.Knows cfg missed got sent → pc'.Knows cfg missed got sent) :
    Acts cfg s t pc miss ((s.malloc o).goto t pc') false []
  | goes {pc' : Pc} (hsd : pc.sd = some sd) (hsd' : pc'.sd = some sd)
      (hhas : pc.has = pc'.has ++ lost)
      (hknows : ∀ (missed : Prop) got sent, (miss = true → missed) →
        pc.Knows cfg missed got sent → pc'.Knows cfg missed got sent) :
    Acts cfg s t pc miss (s.goto t pc') false lost
  | reads (hpc : pc = .read sd) (hr : (s.inp (s.peer sd)).recv k maxbuf = some (bs, st)) :
    Acts cfg s t pc miss
      (Sys.goto { s with inp := Function.update s.inp (s.peer sd) st } t (afterRead sd bs)) false []
  | writes (hpc : pc = .write sd r found) (hst : st = (s.out (s.peer sd)).send bs)
      (hbs : bs <+: r.bytes) :
    Acts cfg s t pc miss
      (Sys.goto { s with out := Function.update s.out (s.peer sd) st } t (.close sd found)) false []
  | closes (hpc : pc = .close sd found) :
    Acts cfg s t pc miss
      (Sys.goto (Sys.free { s with fds := fdClose s.fds sd } pc.has) t (.exited v)) false []
  | fails (sd : Nat) (hsd : pc.sd = some sd) :
    Acts cfg s t pc miss ((s.free pc.has).goto t (.exited v)) true []
  | givesUp (sd : Nat) (hsd : pc.sd = some sd) :
    Acts cfg s t pc miss (s.goto t (.exited v)) true pc.has
  | ended (hm : m.ended = true) : Acts cfg s t pc miss (s.ended m) false []

theorem afterRead_sd (sd : Nat) (bs : Bytes) : (afterRead sd bs).sd = some sd := by
  unfold afterRead
  split <;> rfl

theorem afterRead_has (sd : Nat) (bs : Bytes) : (afterRead sd bs).has = [.username] := by
  unfold afterRead
  split <;> rfl

theorem thread_acts (cfg : Cfg) (s : Sys) (t : Nat) (a : Answer) (pc : Pc) :
    Acts cfg s t pc (pc.misses a) (s.thread cfg t a pc) (pc.leaves a) (pc.loses cfg a) := by
  have hkeep : ∀ (missed : Prop) got sent, (pc.misses a = true → missed) →
      pc.Knows cfg missed got sent → True := fun _ _ _ _ _ => trivial
  cases pc with
  | mallocUsername sd =>
    cases a with
    | fail e => exact .fails sd rfl
    | done k =>
      have hperm : [Obj.username].Perm [.username] := .refl _
      exact .alloc rfl rfl hperm fun _ _ _ _ h => h
  | read sd =>
    cases a with
    | fail e => exact .goes rfl rfl rfl hkeep
    | done k =>
      simp only [Sys.thread]
      split
      · split
        case h_1 => exact .idle
        case h_2 bs st hr => exact .reads rfl hr
      · exact .goes rfl rfl rfl hkeep
  | mallocReply sd u =>
    cases a with
    | fail e => exact .fails sd rfl
    | done k =>
      have hperm : [Obj.username, .reply].Perm [.reply, .username] := by decide
      exact .alloc rfl rfl hperm fun _ _ _ _ h => h
  | mallocPasswd sd u =>
    cases a with
    | fail e => exact .fails sd rfl
    | done k =>
      have hperm : [Obj.username, .reply, .passwd].Perm [.passwd, .username, .reply] := by decide
      exact .alloc rfl rfl hperm fun _ _ _ _ h => h
  | getpwnamR sd u =>
    simp only [Sys.thread, Pc.loses]
    split
    case h_1 hp =>
      rw [hp]
      refine .goes rfl rfl rfl fun missed _ _ hmiss h => ⟨h.2, u, h.1, .inl ⟨rfl, ?_⟩⟩
      cases a with
      | fail e => exact .inr (hmiss rfl)
      | done k => exact .inl hp
    case h_2 p hp =>
      rw [hp]
      have hu : cfg.getpwnam u = some p := by
        cases a with
        | fail e => cases hp
        | done k => exact hp
      exact .goes rfl rfl rfl fun _ _ _ _ h => ⟨h.2, u, h.1, .inr ⟨p, hu, rfl⟩⟩
  | write sd r found =>
    simp only [Sys.thread]
    split
    case h_1 => exact .ended rfl
    case h_2 => exact .goes rfl rfl (List.append_nil _).symm hkeep
    case h_3 k =>
      split
      · exact .writes rfl rfl (chunk_eq_take .. ▸ List.take_prefix ..)
      · exact .goes rfl rfl (List.append_nil _).symm hkeep
  | close sd found => exact .closes rfl
  | errExit sd err found =>
    cases a with
    | fail e => exact .ended rfl
    | done k => exact .givesUp sd rfl
  | exited v => exact .idle
  | overrun sd => exact .idle

/-- What a call of `main` can do, and whether it leaves the new socket open behind. -/
inductive MainActs (s : Sys) : Sys → Bool → Prop where
  | idle : MainActs s s false
  | accepts (hm : s.main = .accept) (hb : s.backlog = c :: rest) :
    MainActs s
      { s with
        fds := fdInstall .conn s.fds
        peer := Function.update s.peer (fdLowest s.fds) c
        backlog := rest
        main := .create (fdLowest s.fds) } false
  | creates (hm : s.main = .create newsd) :
    MainActs s
      { s with threads := s.threads ++ [.mallocUsername newsd], main := .detach } false
  | drops (hm : s.main = .create newsd) : MainActs s { s with main := .detach } true
  | detaches (hm : s.main = .detach) : MainActs s { s with main := .accept } false
  | ended (hm : m.ended = true) : MainActs s (s.ended m) false

theorem mainCall_acts (s : Sys) (a : Answer) :
    MainActs s (s.mainCall a) (s.main.newsd.isSome && failed a) := by
  unfold Sys.mainCall
  split
  case h_1 hm =>
    rw [hm]
    split
    · exact .ended rfl
    · split
      case h_1 => exact .idle
      case h_2 c rest hb => exact .accepts hm hb
  case h_2 newsd hm =>
    rw [hm]
    split
    · exact .drops hm
    · exact .creates hm
  case h_3 hm =>
    rw [hm]
    split
    · exact .ended rfl
    · exact .detaches hm
  case h_4 hm =>
    rw [hm]
    exact .idle
  case h_5 hm =>
    rw [hm]
    exact .idle

/-- The sockets of the threads, and the one that `main` has accepted for the next thread. -/
def Sys.sds (s : Sys) : List (Option Nat) := s.threads.map Pc.sd ++ [s.main.newsd]

def Sys.own (s : Sys) (p : Nat) : Desc → Option Nat
  | .conn => s.sds[p]?.join
  | _ => none

def Desc.tracked : Desc → Bool
  | .conn => true
  | _ => false

def Sys.held (s : Sys) : Held Nat Desc := .ofTable Desc.tracked s.fds s.own

theorem own_eq_give {s s' : Sys} (h : ∀ q, s'.sds[q]?.join = if q = p then x else s.sds[q]?.join) :
    s'.own = Held.give s.own p .conn x := by
  funext q j
  cases j with
  | conn =>
    rw [Sys.own, h q]
    by_cases hq : q = p
    · rw [if_pos hq, hq, Held.give_self]
    · rw [if_neg hq, Held.give_other (fun hc => hq hc.1)]
      rfl
  | std | listener => exact (Held.give_other (fun hc => by cases hc.2) _).symm

theorem sds_thread {s : Sys} {t : Nat} {pc : Pc} (ht : s.threads[t]? = some pc) :
    s.sds[t]? = some pc.sd := by
  obtain ⟨hlt, _⟩ := List.getElem?_eq_some_iff.1 ht
  rw [Sys.sds, List.getElem?_append_left (by rwa [List.length_map]), List.getElem?_map, ht,
    Option.map_some]

theorem own_thread {s : Sys} {pc : Pc} (ht : s.threads[t]? = some pc) : s.own t .conn = pc.sd := by
  rw [Sys.own, sds_thread ht, Option.join_some]

theorem own_goto {s : Sys} (ht : s.threads[t]? = some pc) (pc' : Pc) :
    (s.goto t pc').own = Held.give s.own t .conn pc'.sd := by
  apply own_eq_give
  intro q
  obtain ⟨hlt, _⟩ := List.getElem?_eq_some_iff.1 ht
  have hset : (s.goto t pc').sds = s.sds.set t pc'.sd := by
    rw [Sys.sds, Sys.sds, List.set_append_left _ _ (by rwa [List.length_map]), ← List.map_set]
    rfl
  have hlt' : t < s.sds.length := by
    rw [Sys.sds, List.length_append, List.length_map]
    omega
  rw [hset, List.getElem?_set]
  by_cases hq : t = q
  · rw [if_pos hq, if_pos (hq ▸ hlt'), if_pos hq.symm, Option.join_some]
  · rw [if_neg hq, if_neg (Ne.symm hq)]

theorem own_main (s : Sys) : s.own s.threads.length .conn = s.main.newsd := by
  rw [Sys.own, Sys.sds, List.getElem?_append_right (by rw [List.length_map]), List.length_map,
    Nat.sub_self]
  rfl

theorem own_mainTo {s s' : Sys} (ht : s'.threads = s.threads) :
    s'.own = Held.give s.own s.threads.length .conn s'.main.newsd := by
  apply own_eq_give
  intro q
  rw [Sys.sds, Sys.sds, ht]
  rcases Nat.lt_trichotomy q s.threads.length with hlt | rfl | hgt
  · rw [if_neg (Nat.ne_of_lt hlt), List.getElem?_append_left (by rwa [List.length_map]),
      List.getElem?_append_left (by rwa [List.length_map])]
  · rw [if_pos rfl, List.getElem?_append_right (by rw [List.length_map]), List.length_map,
      Nat.sub_self]
    rfl
  · have hout : ∀ m : Option Nat, (s.threads.map Pc.sd ++ [m])[q]? = none := by
      intro m
      apply List.getElem?_eq_none
      rw [List.length_append, List.length_map]
      exact hgt
    rw [if_neg (Nat.ne_of_gt hgt), hout, hout]

theorem own_create {s : Sys} (hm : s.main = .create newsd) :
    Sys.own { s with threads := s.threads ++ [.mallocUsername newsd], main := .detach } =
      s.own := by
  have hsds : Sys.sds { s with threads := s.threads ++ [.mallocUsername newsd], main := .detach } =
      s.sds ++ [none] := by
    simp only [Sys.sds, List.map_append, hm]
    rfl
  funext q j
  cases j with
  | conn =>
    rw [Sys.own, hsds, Sys.own, List.getElem?_append]
    split
    · rfl
    · next hge =>
      rw [List.getElem?_eq_none (Nat.not_lt.1 hge)]
      cases q - s.sds.length <;> rfl
  | std | listener => rfl

section
variable {s s' : Sys} {pc pc' : Pc}

theorem change_keep (hfds : s'.fds = s.fds) (hown : s'.own = s.own) :
    Held.Change s.held false s'.held := by
  rw [Sys.held, Sys.held, hfds, hown]
  exact .keep _

theorem change_goto (ht : s.threads[t]? = some pc) (hsd : pc'.sd = pc.sd) (hfds : s'.fds = s.fds)
    (hown : s'.own = (s.goto t pc').own) : Held.Change s.held false s'.held := by
  refine change_keep hfds ?_
  rw [hown, own_goto ht]
  exact Held.give_eq_self ((own_thread ht).trans hsd.symm)

theorem change_ended (s : Sys) (hm : m.ended = true) :
    Held.Change s.held false (s.ended m).held := by
  apply Held.change_exit
  have hsds : (s.ended m).sds = [none] := by
    cases m <;> first | rfl | cases hm
  funext p k
  cases k with
  | conn =>
    rw [Sys.own, hsds]
    cases p <;> rfl
  | std | listener => rfl

theorem Acts.change (h : Acts cfg s t pc miss s' b lost) (ht : s.threads[t]? = some pc) :
    Held.Change s.held b s'.held := by
  cases h with
  | idle => exact .keep _
  | alloc hsd hsd' => exact change_goto ht (hsd'.trans hsd.symm) rfl rfl
  | goes hsd hsd' => exact change_goto ht (hsd'.trans hsd.symm) rfl rfl
  | @reads sd k bs st hpc =>
    subst hpc
    exact change_goto ht (afterRead_sd sd bs) rfl rfl
  | @writes sd r found _ _ hpc =>
    subst hpc
    have hsd : (Pc.close sd found).sd = (Pc.write sd r found).sd := rfl
    exact change_goto ht hsd rfl rfl
  | closes hpc =>
    subst hpc
    exact Held.change_close (own_thread ht) (own_goto ht (.exited _))
  | fails sd hsd => exact Held.change_leave ((own_thread ht).trans hsd) (own_goto ht (.exited _))
  | givesUp sd hsd => exact Held.change_leave ((own_thread ht).trans hsd) (own_goto ht (.exited _))
  | ended hm => exact change_ended s hm

theorem MainActs.change (h : MainActs s s' b) : Held.Change s.held b s'.held := by
  have hown : s.own s.threads.length .conn = s.main.newsd := own_main s
  cases h with
  | idle => exact .keep _
  | accepts hm =>
    rw [hm] at hown
    exact Held.change_install rfl hown (own_mainTo rfl)
  | creates hm => exact change_keep rfl (own_create hm)
  | drops hm =>
    rw [hm] at hown
    exact Held.change_leave hown (own_mainTo rfl)
  | detaches hm =>
    rw [hm] at hown
    have hto : Sys.own { s with main := .accept } =
        Held.give s.own s.threads.length .conn Main.accept.newsd := own_mainTo rfl
    exact change_keep rfl (hto.trans (Held.give_eq_self hown))
  | ended hm => exact change_ended s hm

end

theorem step_change (cfg : Cfg) (s : Sys) (e : Ev) :
    Held.Change s.held (leaves s e) (s.step cfg e).held := by
  cases e with
  | main a => exact (mainCall_acts s a).change
  | thread t a =>
    simp only [Sys.step, leaves]
    split
    case h_1 ht =>
      rw [ht]
      exact .keep _
    case h_2 pc ht =>
      rw [ht]
      exact (thread_acts cfg s t a pc).change ht
  | connect => exact .keep _
  | clientSend c bs =>
    simp only [Sys.step]
    split <;> exact .keep _
  | clientShut c => exact .keep _

def Sys.sockets (s : Sys) : List Nat :=
  s.threads.flatMap (·.sd.toList) ++ s.main.newsd.toList

def Sys.blocks (s : Sys) : List Obj := s.threads.flatMap Pc.has

section
variable {s s' : Sys} {pc pc' : Pc}

theorem sockets_goto (ht : s.threads[t]? = some pc) (pc' : Pc) :
    (s.goto t pc').sockets.length + pc.sd.toList.length =
      s.sockets.length + pc'.sd.toList.length := by
  have hlen := (perm_flatMap_set (f := fun pc : Pc => pc.sd.toList) ht pc').length_eq
  simp only [List.length_append] at hlen
  simp only [Sys.sockets, Sys.goto, List.length_append]
  omega

theorem sockets_eq (hthreads : s'.threads = s.threads.set t pc') (hmain : s'.main = s.main) :
    s'.sockets = (s.goto t pc').sockets := by
  rw [Sys.sockets, hthreads, hmain]
  rfl

theorem blocks_goto (ht : s.threads[t]? = some pc) (pc' : Pc) (o : Obj) :
    (s.goto t pc').blocks.count o + pc.has.count o = s.blocks.count o + pc'.has.count o := by
  have hcount := (perm_flatMap_set (f := Pc.has) ht pc').count_eq o
  simp only [List.count_append] at hcount
  exact hcount

theorem blocks_step (ht : s.threads[t]? = some pc) (hthreads : s'.threads = s.threads.set t pc')
    (hbal : s'.heap.count o + pc.has.count o = s.heap.count o + pc'.has.count o + n) :
    s'.heap.count o + s.blocks.count o = s.heap.count o + s'.blocks.count o + n := by
  have hgo := blocks_goto ht pc' o
  have hblocks : s'.blocks = (s.goto t pc').blocks := congrArg (List.flatMap Pc.has) hthreads
  rw [hblocks]
  omega

theorem sockets_keep (ht : s.threads[t]? = some pc) (hsd : pc'.sd = pc.sd)
    (hthreads : s'.threads = s.threads.set t pc') (hmain : s'.main = s.main)
    (hfds : s'.fds = s.fds) :
    s'.fds.count (some .conn) + s.sockets.length =
      s.fds.count (some .conn) + s'.sockets.length := by
  have hlen := sockets_goto ht pc'
  rw [hsd, ← sockets_eq hthreads hmain] at hlen
  rw [hfds]
  omega

theorem sockets_leave (ht : s.threads[t]? = some pc) (hsd : pc.sd = some sd) (hsd' : pc'.sd = none)
    (hthreads : s'.threads = s.threads.set t pc') (hmain : s'.main = s.main)
    (hfds : s'.fds = s.fds) :
    s'.fds.count (some .conn) + s.sockets.length =
      s.fds.count (some .conn) + s'.sockets.length + 1 := by
  have hlen : s'.sockets.length + 1 = s.sockets.length := by
    have hgo := sockets_goto ht pc'
    rw [hsd, hsd', ← sockets_eq hthreads hmain] at hgo
    exact hgo
  rw [hfds]
  omega

theorem Acts.sockets (h : Acts cfg s t pc miss s' b lost) (ht : s.threads[t]? = some pc)
    (hs : s.held.Sound) (hm : s'.main.ended = false) :
    s'.fds.count (some .conn) + s.sockets.length =
      s.fds.count (some .conn) + s'.sockets.length + b.toNat := by
  cases h with
  | idle => rfl
  | alloc hsd hsd' => exact sockets_keep ht (hsd'.trans hsd.symm) rfl rfl rfl
  | goes hsd hsd' => exact sockets_keep ht (hsd'.trans hsd.symm) rfl rfl rfl
  | reads hpc =>
    subst hpc
    exact sockets_keep ht (afterRead_sd ..) rfl rfl rfl
  | @writes sd r found _ _ hpc =>
    subst hpc
    have hsd : (Pc.close sd found).sd = (Pc.write sd r found).sd := rfl
    exact sockets_keep ht hsd rfl rfl rfl
  | @closes sd found v hpc =>
    subst hpc
    have hopen : fdGet s.fds sd = some .conn :=
      (Held.ofTable_tab rfl s.own).1 (hs.live t .conn sd (own_thread ht))
    have hgo : (s.goto t (.exited v)).sockets.length + 1 = s.sockets.length :=
      sockets_goto ht (.exited v)
    have hclose := count_fdClose hopen
    have hgoal : (fdClose s.fds sd).count (some .conn) + s.sockets.length =
        s.fds.count (some .conn) + (s.goto t (.exited v)).sockets.length := by
      omega
    exact hgoal
  | fails sd hsd => exact sockets_leave ht hsd rfl rfl rfl rfl
  | givesUp sd hsd => exact sockets_leave ht hsd rfl rfl rfl rfl
  | ended hmo => cases hmo.symm.trans hm

theorem count_free (s : Sys) (hle : os.count o ≤ s.heap.count o) :
    (s.free os).heap.count o + os.count o = s.heap.count o := by
  rw [Sys.free, List.count_diff]
  omega

theorem Acts.blocks (h : Acts cfg s t pc miss s' b lost) (ht : s.threads[t]? = some pc)
    (hle : ∀ o, s.blocks.count o ≤ s.heap.count o) (hm : s'.main.ended = false) (o : Obj) :
    s'.heap.count o + s.blocks.count o = s.heap.count o + s'.blocks.count o + lost.count o := by
  -- what the thread gives back is in the heap
  have hhas : pc.has.count o ≤ s.heap.count o := by
    have hgo := blocks_goto ht (.exited "0") o
    have hnil : (Pc.exited "0").has.count o = 0 := rfl
    have hs := hle o
    omega
  cases h with
  | idle => rfl
  | @alloc _ o' pc' _ _ hperm =>
    refine blocks_step ht rfl ?_
    have hcount := hperm.count_eq o
    have hheap : ((s.malloc o').goto t pc').heap = o' :: s.heap := rfl
    rw [List.count_cons] at hcount
    rw [hheap, List.count_cons, List.count_nil]
    omega
  | @goes _ lost pc' _ _ hlost =>
    refine blocks_step ht rfl ?_
    have hcount := congrArg (List.count o) hlost
    have hheap : (s.goto t pc').heap = s.heap := rfl
    rw [List.count_append] at hcount
    rw [hheap]
    omega
  | reads hpc =>
    subst hpc
    refine blocks_step ht rfl ?_
    rw [afterRead_has]
    rfl
  | writes hpc =>
    subst hpc
    exact blocks_step ht rfl rfl
  | closes => exact blocks_step ht rfl (count_free s hhas)
  | fails => exact blocks_step ht rfl (count_free s hhas)
  | givesUp => exact blocks_step ht rfl (congrArg (· + pc.has.count o) (Nat.add_zero _).symm)
  | ended hmo => cases hmo.symm.trans hm

theorem MainActs.sockets (h : MainActs s s' b) (hm : s'.main.ended = false) :
    s'.fds.count (some .conn) + s.sockets.length =
      s.fds.count (some .conn) + s'.sockets.length + b.toNat := by
  cases h with
  | idle => rfl
  | accepts hpc =>
    simp only [Sys.sockets, hpc, count_fdInstall, List.length_append]
    exact Nat.add_right_comm _ 1 _
  | creates hpc =>
    simp only [Sys.sockets, hpc, List.flatMap_append, List.length_append]
    rfl
  | drops hpc =>
    simp only [Sys.sockets, hpc, List.length_append]
    rfl
  | detaches hpc =>
    simp only [Sys.sockets, hpc]
    rfl
  | ended hmo => cases hmo.symm.trans hm

theorem MainActs.blocks (h : MainActs s s' b) (hm : s'.main.ended = false) :
    s'.heap = s.heap ∧ s'.blocks = s.blocks := by
  cases h with
  | idle | accepts | drops | detaches => exact ⟨rfl, rfl⟩
  | creates => exact ⟨rfl, List.flatMap_append.trans (List.append_nil _)⟩
  | ended hmo => cases hmo.symm.trans hm

end

/-- Descriptors are accounted for, and what a thread has a pointer to is there. -/
structure Sys.Sound (s : Sys) : Prop where
  held : s.held.Sound
  blocks : s.main.ended = false → ∀ o, s.blocks.count o ≤ s.heap.count o

theorem start_sound : Sys.start.Sound where
  held :=
    { live := by
        intro p k fd h
        cases k with
        | conn => cases p <;> cases h
        | std | listener => cases h
      alone := by
        intro p q k fd h
        cases k with
        | conn => cases p <;> cases h
        | std | listener => cases h }
  blocks := fun _ _ => Nat.zero_le _

theorem Acts.main_ended {s : Sys} (h : Acts cfg s t pc miss s' b lost) (ho : s.main.ended = true) :
    s'.main.ended = true := by
  cases h with
  | ended hm => exact hm
  | idle | alloc | goes | reads | writes | closes | fails | givesUp => exact ho

theorem MainActs.main_ended {s : Sys} (h : MainActs s s' b) (ho : s.main.ended = true) :
    s'.main.ended = true := by
  cases h with
  | ended hm => exact hm
  | idle => exact ho
  | accepts hm | creates hm | drops hm | detaches hm =>
    rw [hm] at ho
    cases ho

theorem step_ended (cfg : Cfg) {s : Sys} (e : Ev) (h : s.main.ended = true) :
    (s.step cfg e).main.ended = true := by
  cases e with
  | main a => exact (mainCall_acts s a).main_ended h
  | thread t a =>
    simp only [Sys.step]
    split
    · exact h
    · exact (thread_acts cfg s t a _).main_ended h
  | clientSend c bs =>
    simp only [Sys.step]
    split <;> exact h
  | connect | clientShut => exact h

theorem not_ended_of_step (cfg : Cfg) (s : Sys) (e : Ev) (h : (s.step cfg e).main.ended = false) :
    s.main.ended = false := by
  cases ho : s.main.ended with
  | false => rfl
  | true => exact (step_ended cfg e ho).symm.trans h

theorem loses_count (cfg : Cfg) (a : Answer) (pc : Pc) (o : Obj) :
    (pc.loses cfg a).count o = ((pc.loses cfg a).contains o).toNat := by
  have hone : ∀ os : List Obj, os.Nodup → os.count o = (os.contains o).toNat := by
    intro os hnodup
    rw [hnodup.count]
    by_cases ho : o ∈ os
    · rw [if_pos ho, List.contains_iff_mem.2 ho]
      rfl
    · rw [if_neg ho, Bool.eq_false_iff.2 (fun hc => ho (List.contains_iff_mem.1 hc))]
      rfl
  apply hone
  unfold Pc.loses
  split
  · split <;> decide
  · split
    · exact List.nodup_nil
    · unfold Pc.has
      split
      all_goals first
        | decide
        | split <;> decide
  · exact List.nodup_nil

theorem step_sockets {cfg : Cfg} {s : Sys} (hs : s.Sound) (e : Ev)
    (hm : (s.step cfg e).main.ended = false) :
    (s.step cfg e).fds.count (some .conn) + s.sockets.length =
      s.fds.count (some .conn) + (s.step cfg e).sockets.length + (leaves s e).toNat := by
  cases e with
  | main a => exact (mainCall_acts s a).sockets hm
  | thread t a =>
    simp only [Sys.step, leaves] at hm ⊢
    split at hm
    case h_1 ht =>
      rw [ht]
      rfl
    case h_2 pc ht =>
      rw [ht]
      exact (thread_acts cfg s t a pc).sockets ht hs.held hm
  | clientSend c bs =>
    simp only [Sys.step]
    split <;> rfl
  | connect | clientShut => rfl

theorem step_blocks {cfg : Cfg} {s : Sys} (hs : s.Sound) (e : Ev)
    (hm : (s.step cfg e).main.ended = false) (o : Obj) :
    (s.step cfg e).heap.count o + s.blocks.count o =
      s.heap.count o + (s.step cfg e).blocks.count o + (loses cfg o s e).toNat := by
  have hlive := not_ended_of_step cfg s e hm
  cases e with
  | main a =>
    obtain ⟨hheap, hblocks⟩ := (mainCall_acts s a).blocks hm
    have hstep : s.step cfg (.main a) = s.mainCall a := rfl
    rw [hstep, hheap, hblocks]
    rfl
  | thread t a =>
    simp only [Sys.step, loses] at hm ⊢
    split at hm
    case h_1 ht =>
      rw [ht]
      rfl
    case h_2 pc ht =>
      rw [ht]
      exact loses_count cfg a pc o ▸ (thread_acts cfg s t a pc).blocks ht (hs.blocks hlive) hm o
  | clientSend c bs =>
    simp only [Sys.step]
    split <;> rfl
  | connect | clientShut => rfl

theorem Sys.Sound.step {s : Sys} (hs : s.Sound) (cfg : Cfg) (e : Ev) : (s.step cfg e).Sound := by
  refine ⟨(step_change cfg s e).sound hs.held, fun hm o => ?_⟩
  have hbal := step_blocks hs e hm o
  have hle := hs.blocks (not_ended_of_step cfg s e hm) o
  omega

/-- As long as the server runs: the open connections are those that a thread or `main` has to do
with, and one for each thread that ended without its `close`, as it does whenever it runs out of
memory or its `read` or `write` fails, and for each that could not be created. The heap has what the
threads have pointers to, and what they lost: the `struct passwd` of each user that is not found,
and all that a thread has when its `read` or `write` fails. -/
theorem mt_sfingr_leaks (cfg : Cfg) {es : List Ev}
    (hm : (run (Sys.step cfg) .start es).main.ended = false) :
    let s := run (Sys.step cfg) .start es
    s.fds.count (some .conn) = s.sockets.length + tally leaves (Sys.step cfg) .start es ∧
      ∀ o, s.heap.count o = s.blocks.count o + tally (loses cfg o) (Sys.step cfg) .start es := by
  intro s
  refine ⟨?_, fun o => ?_⟩
  · have hbal := run_balance (p := leaves) Sys.Sound (fun s => s.main.ended = false)
      (fun s => s.fds.count (some .conn)) (fun s => s.sockets.length)
      (fun _ e hs => hs.step cfg e) (not_ended_of_step cfg)
      (fun _ e hs hl => step_sockets hs e hl) start_sound hm
    exact hbal.trans (congrArg (· + _) (Nat.zero_add _))
  · have hbal := run_balance (p := loses cfg o) Sys.Sound (fun s => s.main.ended = false)
      (fun s => s.heap.count o) (fun s => s.blocks.count o)
      (fun _ e hs => hs.step cfg e) (not_ended_of_step cfg)
      (fun _ e hs hl => step_blocks hs e hl o) start_sound hm
    exact hbal.trans (congrArg (· + _) (Nat.zero_add _))

def noUsers : Cfg := ⟨.lit "svr" (by decide), fun _ => none⟩

/-- A client asks for a user that is not there, and gets its answer. -/
def unknownUser : List Ev :=
  [.connect, .clientSend 0 [117]] ++ .replicate 3 (.main (.done 0)) ++
    .replicate 7 (.thread 0 (.done 400))

theorem mt_sfingr_leaks_unknown :
    (run (Sys.step noUsers) .start unknownUser).main.ended = false ∧
    (run (Sys.step noUsers) .start unknownUser).heap.count .passwd = 1 ∧
    (run (Sys.step noUsers) .start unknownUser).fds.count (some .conn) =
      (run (Sys.step noUsers) .start unknownUser).sockets.length +
        tally leaves (Sys.step noUsers) .start unknownUser := by
  have hlive : (run (Sys.step noUsers) .start unknownUser).main.ended = false := by decide +kernel
  exact ⟨hlive, by decide +kernel, (mt_sfingr_leaks noUsers hlive).1⟩

end SysPrg.MtFinger
