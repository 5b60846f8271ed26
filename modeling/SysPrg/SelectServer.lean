import Mathlib.Logic.Function.Basic
import SysPrg.Descriptors
import SysPrg.Kernel

namespace SysPrg.SelectServer
set_option autoImplicit true

abbrev FdSet := Nat → Bool

def fdSetsize : Nat := 1024

inductive Sock where
  | other
  | listener
  | conn (c : Nat)
  deriving DecidableEq, Repr

structure Conn where
  inp : Stream
  out : Stream
  deriving DecidableEq, Repr

/-- Where `main` is, from the loop on. `i` and `j` are the variables of its two `for` loops, and
`readFds` is what `select` left in `read_fds`. -/
inductive Pc where
  | select
  | scan (i : Nat) (readFds : FdSet)
  | accept (i : Nat) (readFds : FdSet)
  | recv (i : Nat) (readFds : FdSet)
  | each (i : Nat) (readFds : FdSet) (buf : Bytes) (j : Nat)
  | send (i : Nat) (readFds : FdSet) (buf : Bytes) (j : Nat)
  | exited (err : String) (status : Int)
  | killed
  | overrun

structure Sys where
  fds : Fds Sock
  master : FdSet
  fdmax : Nat
  conns : List Conn
  backlog : List Nat
  pc : Pc

inductive Ev where
  | call (a : Answer)
  | connect
  | clientSend (c : Nat) (bs : Bytes)
  | clientShut (c : Nat)
  deriving DecidableEq, Repr

def Sys.inp (s : Sys) (c : Nat) : Stream := (s.conns[c]?.map Conn.inp).getD .fresh

def Sys.out (s : Sys) (c : Nat) : Stream := (s.conns[c]?.map Conn.out).getD .fresh

def Sys.setInp (s : Sys) (c : Nat) (t : Stream) : Sys :=
  { s with conns := s.conns.modify c fun k => { k with inp := t } }

def Sys.setOut (s : Sys) (c : Nat) (t : Stream) : Sys :=
  { s with conns := s.conns.modify c fun k => { k with out := t } }

/-- Whether a `recv` or an `accept` on the descriptor would not block. -/
def Sys.ready (s : Sys) (fd : Nat) : Bool :=
  match fdGet s.fds fd with
  | some .listener => s.backlog ≠ []
  | some (.conn c) => (s.inp c).inFlight ≠ [] || (s.inp c).shut
  | some .other => true
  | none => false

/-- `select(fdmax+1, &read_fds, ..)` fails if one of its descriptors is not open, and blocks while
none is ready. -/
def Sys.select (s : Sys) : Answer → Sys
  | .fail _ => { s with pc := .exited "select" 4 }
  | .done _ =>
    let watched := (List.range (s.fdmax + 1)).filter s.master
    if watched.any fun fd => (fdGet s.fds fd).isNone then { s with pc := .exited "select" 4 }
    else if watched.any s.ready then
      { s with pc := .scan 0 fun fd => watched.contains fd && s.ready fd }
    else s

/-- `accept(listener, ..)`, and `FD_SET` and `fdmax` after it. Nothing compares the new descriptor
with `FD_SETSIZE`: the bit of one that is not below it is in what comes behind `master`, and it has
not been said what the server does with that overwritten. -/
def Sys.accept (listener : Nat) (s : Sys) (i : Nat) (readFds : FdSet) : Answer → Sys
  | .fail _ => { s with pc := .scan (i + 1) readFds }
  | .done _ =>
    match fdGet s.fds listener with
    | some .listener =>
      match s.backlog with
      | [] => s
      | c :: rest =>
        let newfd := fdLowest s.fds
        { s with
          fds := fdInstall (.conn c) s.fds
          master := Function.update s.master newfd true
          fdmax := max s.fdmax newfd
          backlog := rest
          pc := if newfd < fdSetsize then .scan (i + 1) readFds else .overrun }
    | _ => { s with pc := .scan (i + 1) readFds }

/-- `close(i)` and `FD_CLR(i, &master)`. -/
def Sys.drop (s : Sys) (i : Nat) (readFds : FdSet) : Sys :=
  { s with
    fds := fdClose s.fds i
    master := Function.update s.master i false
    pc := .scan (i + 1) readFds }

def Sys.recv (s : Sys) (i : Nat) (readFds : FdSet) : Answer → Sys
  | .fail _ => s.drop i readFds
  | .done k =>
    match fdGet s.fds i with
    | some (.conn c) =>
      match (s.inp c).recv k 256 with
      | none => s
      | some ([], _) => s.drop i readFds
      | some (buf, t) => { s.setInp c t with pc := .each i readFds buf 0 }
    | _ => s.drop i readFds

/-- `send(j, buf, nbytes, 0)`. Its result is only compared with -1, and nobody has asked for
`SIGPIPE` not to kill the server. -/
def Sys.send (s : Sys) (i : Nat) (readFds : FdSet) (buf : Bytes) (j : Nat) : Answer → Sys
  | .fail .epipe => { s with pc := .killed }
  | .fail _ => { s with pc := .each i readFds buf (j + 1) }
  | .done k =>
    match fdGet s.fds j with
    | some (.conn d) =>
      { s.setOut d ((s.out d).send (chunk k buf.length buf)) with
        pc := .each i readFds buf (j + 1) }
    | _ => { s with pc := .each i readFds buf (j + 1) }

def Sys.call (listener : Nat) (s : Sys) (a : Answer) : Pc → Sys
  | .select => s.select a
  | .scan i readFds =>
    if i ≤ s.fdmax then
      if readFds i then
        { s with pc := if i = listener then .accept i readFds else .recv i readFds }
      else { s with pc := .scan (i + 1) readFds }
    else { s with pc := .select }
  | .accept i readFds => s.accept listener i readFds a
  | .recv i readFds => s.recv i readFds a
  | .each i readFds buf j =>
    if j ≤ s.fdmax then
      if s.master j ∧ j ≠ listener ∧ j ≠ i then { s with pc := .send i readFds buf j }
      else { s with pc := .each i readFds buf (j + 1) }
    else { s with pc := .scan (i + 1) readFds }
  | .send i readFds buf j => s.send i readFds buf j a
  | .exited _ _ | .killed | .overrun => s

def Sys.step (listener : Nat) (s : Sys) : Ev → Sys
  | .call a => s.call listener a s.pc
  | .connect =>
    { s with
      conns := s.conns ++ [⟨.fresh, .fresh⟩]
      backlog := s.backlog ++ [s.conns.length] }
  | .clientSend c bs => if (s.inp c).shut then s else s.setInp c ((s.inp c).send bs)
  | .clientShut c => s.setInp c (s.inp c).close

/-- The server before its loop: it listens, and has no connections yet. -/
structure Sys.Start (listener : Nat) (s : Sys) : Prop where
  listening : fdGet s.fds listener = some .listener
  fresh : ∀ fd c, fdGet s.fds fd ≠ some (.conn c)
  master : s.master = Function.update (fun _ => false) listener true
  fdmax : s.fdmax = listener
  bound : listener < fdSetsize
  conns : s.conns = []
  backlog : s.backlog = []
  pc : s.pc = .select

def Sys.listening : Sys :=
  ⟨[some .other, some .other, some .other, some .listener],
    Function.update (fun _ => false) 3 true, 3, [], [], .select⟩

theorem listening_start : Sys.listening.Start 3 := by
  refine ⟨rfl, ?_, rfl, rfl, by decide, rfl, rfl, rfl⟩
  intro fd c
  match fd with
  | 0 | 1 | 2 | 3 => nofun
  | _ + 4 => nofun

/-- The descriptors, as `master`, `fdmax` and the table have them. -/
structure Sys.Table (listener : Nat) (s : Sys) : Prop where
  listening : fdGet s.fds listener = some .listener
  master : ∀ fd, s.master fd = true ↔ fd = listener ∨ ∃ c, fdGet s.fds fd = some (.conn c)
  below : ∀ fd, s.master fd = true → fd ≤ s.fdmax
  once : ∀ fd fd' c, fdGet s.fds fd = some (.conn c) → fdGet s.fds fd' = some (.conn c) → fd = fd'
  known : ∀ fd c, fdGet s.fds fd = some (.conn c) → c < s.conns.length
  queued : ∀ c ∈ s.backlog, c < s.conns.length ∧ ∀ fd, fdGet s.fds fd ≠ some (.conn c)
  nodup : s.backlog.Nodup

def Watched (master : FdSet) (i : Nat) (readFds : FdSet) : Prop :=
  ∀ fd, i ≤ fd → readFds fd = true → master fd = true

def Sys.Aims (listener : Nat) (s : Sys) : Pc → Prop
  | .accept i _ => i = listener ∧ fdGet s.fds i = some .listener
  | .recv i _ => ∃ c, fdGet s.fds i = some (.conn c)
  | .each i _ _ _ => ∃ c, fdGet s.fds i = some (.conn c)
  | .send i _ _ j =>
    (∃ c, fdGet s.fds i = some (.conn c)) ∧ i ≠ j ∧ ∃ d, fdGet s.fds j = some (.conn d)
  | .select | .scan _ _ | .exited _ _ | .killed | .overrun => True

def Sys.Rest (s : Sys) : Pc → Prop
  | .scan i readFds => Watched s.master i readFds
  | .accept i readFds | .recv i readFds | .each i readFds _ _ | .send i readFds _ _ =>
    Watched s.master (i + 1) readFds
  | .select | .exited _ _ | .killed | .overrun => True

/-- Only the `accept` that overruns `master` takes `fdmax` out of range. -/
def Sys.Bounded (s : Sys) : Pc → Prop
  | .overrun => fdSetsize ≤ s.fdmax
  | _ => s.fdmax < fdSetsize

structure Sys.Inv (listener : Nat) (s : Sys) : Prop where
  table : s.Table listener
  bound : s.Bounded s.pc
  aims : s.Aims listener s.pc
  rest : s.Rest s.pc

theorem Watched.succ (h : Watched master i readFds) : Watched master (i + 1) readFds :=
  fun fd hi => h fd (Nat.le_of_succ_le hi)

theorem Watched.install (h : Watched master i readFds) (fd : Nat) :
    Watched (Function.update master fd true) i readFds := by
  intro fd' hi hr
  by_cases hfd : fd' = fd
  · rw [hfd, Function.update_self]
  · rw [Function.update_of_ne hfd]
    exact h fd' hi hr

theorem Watched.drop (h : Watched master (i + 1) readFds) :
    Watched (Function.update master i false) (i + 1) readFds := by
  intro fd hi hr
  rw [Function.update_of_ne (Nat.ne_of_gt hi)]
  exact h fd hi hr

theorem Sys.Start.table {s : Sys} (h : s.Start listener) : s.Table listener where
  listening := h.listening
  master := by
    intro fd
    rw [h.master]
    by_cases hfd : fd = listener
    · simp [hfd]
    · rw [Function.update_of_ne hfd]
      simp only [Bool.false_eq_true, hfd, false_or, false_iff]
      rintro ⟨c, hc⟩
      exact h.fresh fd c hc
  below := by
    intro fd hfd
    rw [h.master] at hfd
    by_cases hl : fd = listener
    · rw [hl, h.fdmax]
    · rw [Function.update_of_ne hl] at hfd
      cases hfd
  once := fun fd _ c hc => (h.fresh fd c hc).elim
  known := fun fd c hc => (h.fresh fd c hc).elim
  queued := by simp [h.backlog]
  nodup := by simp [h.backlog]

theorem Sys.Start.bounded {s : Sys} (h : s.Start listener) : s.fdmax < fdSetsize :=
  h.fdmax ▸ h.bound

theorem Sys.Start.inv {s : Sys} (h : s.Start listener) : s.Inv listener :=
  ⟨h.table, by rw [h.pc]; exact h.bounded, by rw [h.pc]; trivial, by rw [h.pc]; trivial⟩

theorem Sys.Table.goto {s : Sys} (h : s.Table listener) (pc : Pc) :
    Sys.Table listener { s with pc := pc } :=
  ⟨h.listening, h.master, h.below, h.once, h.known, h.queued, h.nodup⟩

theorem Sys.Table.carry {s : Sys} (h : s.Table listener) {conns : List Conn}
    (hl : conns.length = s.conns.length) : Sys.Table listener { s with conns := conns } :=
  ⟨h.listening, h.master, h.below, h.once, fun fd c hc => hl ▸ h.known fd c hc,
    fun c hc => hl ▸ h.queued c hc, h.nodup⟩

theorem Sys.Table.connect {s : Sys} (h : s.Table listener) (k : Conn) :
    Sys.Table listener
      { s with conns := s.conns ++ [k], backlog := s.backlog ++ [s.conns.length] } := by
  have hnew : ∀ fd, fdGet s.fds fd ≠ some (.conn s.conns.length) :=
    fun fd hfd => Nat.lt_irrefl _ (h.known fd _ hfd)
  have hl : (s.conns ++ [k]).length = s.conns.length + 1 := List.length_append
  refine ⟨h.listening, h.master, h.below, h.once, ?_, ?_, ?_⟩
  · intro fd c hc
    exact hl ▸ Nat.lt_succ_of_lt (h.known fd c hc)
  · intro c hc
    simp only at hc ⊢
    rw [hl]
    rcases List.mem_append.1 hc with hc | hc
    · exact ⟨Nat.lt_succ_of_lt (h.queued c hc).1, (h.queued c hc).2⟩
    · rw [List.mem_singleton.1 hc]
      exact ⟨Nat.lt_succ_self _, hnew⟩
  · refine List.Nodup.append h.nodup (List.nodup_singleton _) ?_
    intro c hc hc'
    rw [List.mem_singleton.1 hc'] at hc
    exact Nat.lt_irrefl _ (h.queued _ hc).1

theorem Sys.Table.accept {s : Sys} (h : s.Table listener) (hb : s.backlog = c :: rest) :
    Sys.Table listener
      { s with
        fds := fdInstall (.conn c) s.fds
        master := Function.update s.master (fdLowest s.fds) true
        fdmax := max s.fdmax (fdLowest s.fds)
        backlog := rest } := by
  have hfree : fdGet s.fds (fdLowest s.fds) = none := fdGet_lowest s.fds
  have hne : listener ≠ fdLowest s.fds := by
    intro hl
    have := h.listening
    rw [hl, hfree] at this
    cases this
  have hc := h.queued c (hb ▸ List.mem_cons_self)
  have hnd := h.nodup
  rw [hb, List.nodup_cons] at hnd
  refine ⟨?_, ?_, ?_, ?_, ?_, ?_, hnd.2⟩
  · simp only
    rw [fdGet_install, if_neg hne]
    exact h.listening
  · intro fd
    simp only [fdGet_install]
    by_cases hfd : fd = fdLowest s.fds
    · simp [hfd]
    · rw [Function.update_of_ne hfd, h.master fd, if_neg hfd]
  · intro fd hfd
    simp only at hfd ⊢
    by_cases hl : fd = fdLowest s.fds
    · exact hl ▸ Nat.le_max_right _ _
    · rw [Function.update_of_ne hl] at hfd
      exact (h.below fd hfd).trans (Nat.le_max_left _ _)
  · intro fd fd' d hd hd'
    simp only [fdGet_install] at hd hd'
    by_cases hfd : fd = fdLowest s.fds <;> by_cases hfd' : fd' = fdLowest s.fds
    · rw [hfd, hfd']
    · rw [if_pos hfd, Option.some.injEq, Sock.conn.injEq] at hd
      rw [if_neg hfd', ← hd] at hd'
      exact (hc.2 fd' hd').elim
    · rw [if_pos hfd', Option.some.injEq, Sock.conn.injEq] at hd'
      rw [if_neg hfd, ← hd'] at hd
      exact (hc.2 fd hd).elim
    · rw [if_neg hfd] at hd
      rw [if_neg hfd'] at hd'
      exact h.once fd fd' d hd hd'
  · intro fd d hd
    simp only [fdGet_install] at hd
    split at hd
    · rw [Option.some.injEq, Sock.conn.injEq] at hd
      exact hd ▸ hc.1
    · exact h.known fd d hd
  · intro d hd
    have hq := h.queued d (hb ▸ List.mem_cons_of_mem _ hd)
    refine ⟨hq.1, ?_⟩
    intro fd
    simp only [fdGet_install]
    split
    · intro he
      rw [Option.some.injEq, Sock.conn.injEq] at he
      exact hnd.1 (he ▸ hd)
    · exact hq.2 fd

theorem Sys.Table.drop {s : Sys} (h : s.Table listener) (hi : i ≠ listener) :
    Sys.Table listener
      { s with fds := fdClose s.fds i, master := Function.update s.master i false } := by
  have hsub : ∀ fd c, fdGet (fdClose s.fds i) fd = some (.conn c) →
      fdGet s.fds fd = some (.conn c) := by
    intro fd c hc
    rw [fdGet_close] at hc
    split at hc
    · cases hc
    · exact hc
  refine ⟨?_, ?_, ?_, ?_, fun fd c hc => h.known fd c (hsub fd c hc), ?_, h.nodup⟩
  · simp only
    rw [fdGet_close, if_neg (Ne.symm hi)]
    exact h.listening
  · intro fd
    simp only [fdGet_close]
    by_cases hfd : fd = i
    · simp [hfd, hi]
    · rw [Function.update_of_ne hfd, h.master fd, if_neg hfd]
  · intro fd hfd
    simp only at hfd ⊢
    by_cases hl : fd = i
    · rw [hl, Function.update_self] at hfd
      cases hfd
    · rw [Function.update_of_ne hl] at hfd
      exact h.below fd hfd
  · exact fun fd fd' c hc hc' => h.once fd fd' c (hsub fd c hc) (hsub fd' c hc')
  · exact fun c hc => ⟨(h.queued c hc).1, fun fd hfd => (h.queued c hc).2 fd (hsub fd c hfd)⟩

theorem Sys.Table.conn_of_master {s : Sys} (h : s.Table listener) (hm : s.master fd = true)
    (hl : fd ≠ listener) : ∃ c, fdGet s.fds fd = some (.conn c) :=
  ((h.master fd).1 hm).resolve_left hl

theorem Sys.Table.ne_listener {s : Sys} (h : s.Table listener)
    (hc : fdGet s.fds fd = some (.conn c)) : fd ≠ listener := by
  rintro rfl
  rw [h.listening] at hc
  cases hc

theorem Sys.Table.open_of_master {s : Sys} (h : s.Table listener) (hm : s.master fd = true) :
    (fdGet s.fds fd).isSome = true := by
  rcases (h.master fd).1 hm with rfl | ⟨c, hc⟩
  · rw [h.listening, Option.isSome_some]
  · rw [hc, Option.isSome_some]

theorem Sys.accept_cases {s : Sys} (h : s.Table listener) (i : Nat) (readFds : FdSet) (a : Answer) :
    s.accept listener i readFds a = s ∨
      s.accept listener i readFds a = { s with pc := .scan (i + 1) readFds } ∨
      ∃ k c rest, a = .done k ∧ s.backlog = c :: rest ∧
        s.accept listener i readFds a =
          { s with
            fds := fdInstall (.conn c) s.fds
            master := Function.update s.master (fdLowest s.fds) true
            fdmax := max s.fdmax (fdLowest s.fds)
            backlog := rest
            pc := if fdLowest s.fds < fdSetsize then .scan (i + 1) readFds else .overrun } := by
  cases a with
  | fail e => exact .inr (.inl rfl)
  | done k =>
    simp only [Sys.accept, h.listening]
    cases hb : s.backlog with
    | nil => exact .inl rfl
    | cons c rest => exact .inr (.inr ⟨k, c, rest, rfl, rfl, rfl⟩)

theorem Sys.recv_cases (s : Sys) (i : Nat) (readFds : FdSet) (a : Answer) :
    s.recv i readFds a = s ∨ s.recv i readFds a = s.drop i readFds ∨
      ∃ k c buf t, fdGet s.fds i = some (.conn c) ∧ (s.inp c).recv k 256 = some (buf, t) ∧
        s.recv i readFds a = { s.setInp c t with pc := .each i readFds buf 0 } := by
  cases a with
  | fail e => exact .inr (.inl rfl)
  | done k =>
    simp only [Sys.recv]
    split
    · next c hc =>
      split
      · exact .inl rfl
      · exact .inr (.inl rfl)
      · next buf t _ ht => exact .inr (.inr ⟨k, c, buf, t, hc, ht, rfl⟩)
    · exact .inr (.inl rfl)

theorem Sys.send_cases {s : Sys} (hd : fdGet s.fds j = some (.conn d)) (i : Nat) (readFds : FdSet)
    (buf : Bytes) (a : Answer) :
    (∃ e, a = .fail e) ∧ (s.send i readFds buf j a = { s with pc := .killed } ∨
        s.send i readFds buf j a = { s with pc := .each i readFds buf (j + 1) }) ∨
      ∃ k, a = .done k ∧ s.send i readFds buf j a =
        { s.setOut d ((s.out d).send (chunk k buf.length buf)) with
          pc := .each i readFds buf (j + 1) } := by
  cases a with
  | fail e =>
    refine .inl ⟨⟨e, rfl⟩, ?_⟩
    cases e with
    | epipe => exact .inl rfl
    | eintr => exact .inr rfl
    | eagain => exact .inr rfl
    | eexist => exact .inr rfl
    | einval => exact .inr rfl
    | enoent => exact .inr rfl
    | other n => exact .inr rfl
  | done k =>
    refine .inr ⟨k, rfl, ?_⟩
    simp only [Sys.send, hd]

theorem Sys.select_cases {s : Sys} (h : s.Table listener) (a : Answer) :
    s.select a = s ∨ (∃ e, a = .fail e) ∧ s.select a = { s with pc := .exited "select" 4 } ∨
      ∃ readFds, (∀ fd, readFds fd = true → s.master fd = true) ∧
        s.select a = { s with pc := .scan 0 readFds } := by
  cases a with
  | fail e => exact .inr (.inl ⟨⟨e, rfl⟩, rfl⟩)
  | done k =>
    have hopen : (((List.range (s.fdmax + 1)).filter s.master).any
        fun fd => (fdGet s.fds fd).isNone) = false := by
      rw [List.any_eq_false]
      intro fd hfd
      have := h.open_of_master (List.mem_filter.1 hfd).2
      rw [Option.isSome_iff_ne_none] at this
      simpa using this
    simp only [Sys.select, hopen, Bool.false_eq_true, if_false]
    split
    · refine .inr (.inr ⟨_, ?_, rfl⟩)
      intro fd hfd
      rw [Bool.and_eq_true, List.contains_iff_mem, List.mem_filter] at hfd
      exact hfd.1.2
    · exact .inl rfl

theorem setInp_length (s : Sys) (c : Nat) (t : Stream) :
    (s.setInp c t).conns.length = s.conns.length :=
  List.length_modify _ _ _

theorem setOut_length (s : Sys) (c : Nat) (t : Stream) :
    (s.setOut c t).conns.length = s.conns.length :=
  List.length_modify _ _ _

theorem Sys.Inv.accept {s : Sys} (h : s.Table listener) (hb : s.fdmax < fdSetsize)
    (hr : Watched s.master (i + 1) readFds) (hpc : s.Inv listener) (a : Answer) :
    (s.accept listener i readFds a).Inv listener := by
  rcases Sys.accept_cases h i readFds a with he | he | ⟨k, c, rest, rfl, hq, he⟩
  · rw [he]
    exact hpc
  · rw [he]
    exact ⟨h.goto _, hb, trivial, hr⟩
  · rw [he]
    by_cases hlt : fdLowest s.fds < fdSetsize
    · rw [if_pos hlt]
      exact ⟨(h.accept hq).goto _, Nat.max_lt.2 ⟨hb, hlt⟩, trivial, hr.install _⟩
    · rw [if_neg hlt]
      exact ⟨(h.accept hq).goto _, (Nat.not_lt.1 hlt).trans (Nat.le_max_right _ _), trivial,
        trivial⟩

theorem Sys.Inv.drop {s : Sys} (h : s.Table listener) (hb : s.fdmax < fdSetsize)
    (hc : fdGet s.fds i = some (.conn c)) (hr : Watched s.master (i + 1) readFds) :
    (s.drop i readFds).Inv listener :=
  ⟨(h.drop (h.ne_listener hc)).goto _, hb, trivial, hr.drop⟩

theorem Sys.Inv.recv {s : Sys} (h : s.Table listener) (hb : s.fdmax < fdSetsize)
    (hc : fdGet s.fds i = some (.conn c)) (hr : Watched s.master (i + 1) readFds)
    (hpc : s.Inv listener) (a : Answer) : (s.recv i readFds a).Inv listener := by
  rcases s.recv_cases i readFds a with he | he | ⟨k, d, buf, t, hd, _, he⟩
  · rw [he]
    exact hpc
  · rw [he]
    exact Sys.Inv.drop h hb hc hr
  · rw [he]
    exact ⟨(h.carry (setInp_length s d t)).goto _, hb, ⟨d, hd⟩, hr⟩

theorem Sys.Inv.send {s : Sys} (h : s.Table listener) (hb : s.fdmax < fdSetsize)
    (hc : fdGet s.fds i = some (.conn c)) (hd : fdGet s.fds j = some (.conn d))
    (hr : Watched s.master (i + 1) readFds) (buf : Bytes) (a : Answer) :
    (s.send i readFds buf j a).Inv listener := by
  rcases Sys.send_cases hd i readFds buf a with ⟨_, he | he⟩ | ⟨k, _, he⟩
  · rw [he]
    exact ⟨h.goto _, hb, trivial, trivial⟩
  · rw [he]
    exact ⟨h.goto _, hb, ⟨c, hc⟩, hr⟩
  · rw [he]
    exact ⟨(h.carry (setOut_length s d _)).goto _, hb, ⟨c, hc⟩, hr⟩

theorem Sys.Inv.call {s : Sys} (h : s.Inv listener) (a : Answer) :
    (s.call listener a s.pc).Inv listener := by
  obtain ⟨ht, hb, ha, hr⟩ := h
  have h : s.Inv listener := ⟨ht, hb, ha, hr⟩
  cases hpc : s.pc with
  | select =>
    rw [hpc] at hb
    rcases Sys.select_cases ht a with he | ⟨_, he⟩ | ⟨readFds, hm, he⟩
    · simp only [Sys.call, he]
      exact h
    · simp only [Sys.call, he]
      exact ⟨ht.goto _, hb, trivial, trivial⟩
    · simp only [Sys.call, he]
      exact ⟨ht.goto _, hb, trivial, fun fd _ => hm fd⟩
  | scan i readFds =>
    rw [hpc] at hb hr
    have hw : Watched s.master i readFds := hr
    simp only [Sys.call]
    split
    · split
      · next hi =>
        by_cases hl : i = listener
        · rw [if_pos hl]
          exact ⟨ht.goto _, hb, ⟨hl, hl ▸ ht.listening⟩, hw.succ⟩
        · rw [if_neg hl]
          exact ⟨ht.goto _, hb, ht.conn_of_master (hw i (Nat.le_refl i) hi) hl, hw.succ⟩
      · exact ⟨ht.goto _, hb, trivial, hw.succ⟩
    · exact ⟨ht.goto _, hb, trivial, trivial⟩
  | accept i readFds =>
    rw [hpc] at hb hr
    exact Sys.Inv.accept ht hb hr h a
  | recv i readFds =>
    rw [hpc] at hb ha hr
    obtain ⟨c, hc⟩ := ha
    exact Sys.Inv.recv ht hb hc hr h a
  | each i readFds buf j =>
    rw [hpc] at hb ha hr
    simp only [Sys.call]
    split
    · split
      · next hj =>
        exact ⟨ht.goto _, hb, ⟨ha, Ne.symm hj.2.2, ht.conn_of_master hj.1 hj.2.1⟩, hr⟩
      · exact ⟨ht.goto _, hb, ha, hr⟩
    · exact ⟨ht.goto _, hb, trivial, hr⟩
  | send i readFds buf j =>
    rw [hpc] at hb ha hr
    obtain ⟨⟨c, hc⟩, _, d, hd⟩ := ha
    exact Sys.Inv.send ht hb hc hd hr buf a
  | exited err status => exact h
  | killed => exact h
  | overrun => exact h

theorem Sys.Inv.step {s : Sys} (h : s.Inv listener) (e : Ev) :
    (s.step listener e).Inv listener := by
  cases e with
  | call a => exact h.call a
  | connect => exact ⟨h.table.connect _, h.bound, h.aims, h.rest⟩
  | clientSend c bs =>
    simp only [Sys.step]
    split
    · exact h
    · exact ⟨h.table.carry (setInp_length s c _), h.bound, h.aims, h.rest⟩
  | clientShut c => exact ⟨h.table.carry (setInp_length s c _), h.bound, h.aims, h.rest⟩

theorem inv_run {s : Sys} (h : s.Start listener) (es : List Ev) :
    (run (Sys.step listener) s es).Inv listener :=
  run_invariant (Sys.Inv listener) (fun _ e hs => hs.step e) h.inv es

inductive Deed where
  | accept (i : Nat)
  | drop (i : Nat)
  | say (i : Nat) (buf : Bytes)
  deriving DecidableEq, Repr

def Deed.fd : Deed → Nat
  | .accept i | .drop i | .say i _ => i

def Sys.did (listener : Nat) (s : Sys) (e : Ev) : Option Deed :=
  match s.pc, (s.step listener e).pc with
  | .accept i _, .scan _ _ | .accept i _, .overrun => some (.accept i)
  | .recv i _, .scan _ _ => some (.drop i)
  | .recv i _, .each _ _ buf _ => some (.say i buf)
  | _, _ => none

theorem did_of_pc {s : Sys} (h : (s.step listener e).pc = s.pc) : s.did listener e = none := by
  simp only [Sys.did, h]
  cases s.pc <;> rfl

theorem did_of_other {s : Sys} (ha : ∀ i readFds, s.pc ≠ .accept i readFds)
    (hr : ∀ i readFds, s.pc ≠ .recv i readFds) : s.did listener e = none := by
  simp only [Sys.did]
  split
  · next h _ => exact (ha _ _ h).elim
  · next h _ => exact (ha _ _ h).elim
  · next h _ => exact (hr _ _ h).elim
  · next h _ => exact (hr _ _ h).elim
  · rfl

/-- An `accept` returns a descriptor that an `fd_set` has no room for. -/
def Sys.overruns (s : Sys) : Ev → Bool
  | .call (.done _) =>
    match s.pc with
    | .accept _ _ => s.backlog ≠ [] && fdSetsize ≤ fdLowest s.fds
    | _ => false
  | _ => false

theorem call_fdmax {s : Sys} (h : ∀ i readFds, s.pc ≠ .accept i readFds) (a : Answer) :
    (s.call listener a s.pc).fdmax = s.fdmax := by
  cases hpc : s.pc with
  | accept i readFds => exact (h i readFds hpc).elim
  | select =>
    cases a with
    | fail e => rfl
    | done k =>
      simp only [Sys.call, Sys.select]
      split
      · rfl
      · split <;> rfl
  | scan i readFds =>
    simp only [Sys.call]
    split
    · split <;> rfl
    · rfl
  | recv i readFds =>
    rcases s.recv_cases i readFds a with he | he | ⟨k, d, buf, t, _, _, he⟩
    · simp only [Sys.call, he]
    · simp only [Sys.call, he, Sys.drop]
    · simp only [Sys.call, he, Sys.setInp]
  | each i readFds buf j =>
    simp only [Sys.call]
    split
    · split <;> rfl
    · rfl
  | send i readFds buf j =>
    simp only [Sys.call, Sys.send]
    split
    · rfl
    · rfl
    · split <;> rfl
  | exited err status => rfl
  | killed => rfl
  | overrun => rfl

theorem Sys.Inv.bounded_iff {s : Sys} (h : s.Inv listener) (e : Ev) :
    (s.step listener e).fdmax < fdSetsize ↔ s.fdmax < fdSetsize ∧ s.overruns e = false := by
  cases e with
  | connect => exact ⟨fun hb => ⟨hb, rfl⟩, fun hb => hb.1⟩
  | clientSend c bs =>
    have hmax : (s.step listener (.clientSend c bs)).fdmax = s.fdmax := by
      simp only [Sys.step]
      split <;> rfl
    rw [hmax]
    exact ⟨fun hb => ⟨hb, rfl⟩, fun hb => hb.1⟩
  | clientShut c => exact ⟨fun hb => ⟨hb, rfl⟩, fun hb => hb.1⟩
  | call a =>
    by_cases hpc : ∃ i readFds, s.pc = .accept i readFds
    · obtain ⟨i, readFds, hpc⟩ := hpc
      have hb := h.bound
      rw [hpc] at hb
      have hb : s.fdmax < fdSetsize := hb
      simp only [Sys.step, Sys.call, hpc]
      cases a with
      | fail e => exact ⟨fun hb => ⟨hb, rfl⟩, fun hb => hb.1⟩
      | done k =>
        simp only [Sys.accept, h.table.listening, Sys.overruns, hpc]
        cases hq : s.backlog with
        | nil => simp [hb]
        | cons c rest => simp [hb]
    · have hother : ∀ i readFds, s.pc ≠ .accept i readFds :=
        fun i readFds he => hpc ⟨i, readFds, he⟩
      have hover : s.overruns (.call a) = false := by
        cases a with
        | fail e => rfl
        | done k =>
          unfold Sys.overruns
          cases hs : s.pc with
          | accept i readFds => exact (hother i readFds hs).elim
          | _ => rfl
      rw [show (s.step listener (.call a)).fdmax = s.fdmax from call_fdmax hother a, hover]
      exact ⟨fun hb => ⟨hb, rfl⟩, fun hb => hb.1⟩

/-- In every state that the server comes to, `master` has exactly the listener and the open
connections, `fdmax` is no less than any of them, no connection has two descriptors, and each call
is on a descriptor that is open on what the call is for: `select` never fails over a descriptor that
is closed. All descriptors are in range for an `fd_set` exactly as long as no `accept` has returned
one that is not. -/
theorem selectserver_descriptors {s₀ : Sys} (h : s₀.Start listener) (es : List Ev) :
    let s := run (Sys.step listener) s₀ es
    (∀ fd, s.master fd = true ↔ fd = listener ∨ ∃ c, fdGet s.fds fd = some (.conn c)) ∧
      (∀ fd, s.master fd = true → fd ≤ s.fdmax) ∧
      (s.fdmax < fdSetsize ↔ saw Sys.overruns (Sys.step listener) s₀ es = false) ∧
      (∀ fd fd' c, fdGet s.fds fd = some (.conn c) → fdGet s.fds fd' = some (.conn c) → fd = fd') ∧
      s.Aims listener s.pc ∧
      ∀ k, s.pc = .select → (s.step listener (.call (.done k))).pc ≠ .exited "select" 4 := by
  intro s
  have hinv : s.Inv listener := inv_run h es
  have hbound : s.fdmax < fdSetsize ↔
      s₀.fdmax < fdSetsize ∧ saw Sys.overruns (Sys.step listener) s₀ es = false :=
    run_kept_iff (Sys.Inv listener) (fun s => s.fdmax < fdSetsize) (fun _ e hs => hs.step e)
      (fun _ e hs => hs.bounded_iff e) h.inv es
  refine ⟨hinv.table.master, hinv.table.below, hbound.trans (and_iff_right h.bounded),
    hinv.table.once, hinv.aims, ?_⟩
  intro k hpc
  simp only [Sys.step, Sys.call, hpc]
  rcases Sys.select_cases hinv.table (.done k) with he | ⟨⟨e, he⟩, _⟩ | ⟨readFds, _, he⟩
  · rw [he, hpc]
    nofun
  · cases he
  · rw [he]
    nofun

theorem selectserver_descriptors_accepted :
    (run (Sys.step 3) .listening (.connect :: List.replicate 6 (.call (.done 0)))).master 4 = true ∧
      ∃ c, fdGet (run (Sys.step 3) .listening
        (.connect :: List.replicate 6 (.call (.done 0)))).fds 4 = some (.conn c) := by
  have hm : (run (Sys.step 3) .listening
    (.connect :: List.replicate 6 (.call (.done 0)))).master 4 = true := by decide
  have h := selectserver_descriptors listening_start
    (.connect :: List.replicate 6 (.call (.done 0)))
  exact ⟨hm, ((h.1 4).1 hm).resolve_left (by decide)⟩

end SysPrg.SelectServer
