import SysPrg.Kernel
import SysPrg.Run
import SysPrg.Threads

namespace SysPrg.NamedSem
set_option autoImplicit true

inductive Who where
  | parent
  | child
  deriving DecidableEq, Repr

def line : Who → Bytes
  | .parent => "Parent writing\n".toList.map fun c => UInt8.ofNat c.toNat
  | .child => "Child writing\n".toList.map fun c => UInt8.ofNat c.toNat

/-- Where a process is, in turn `i` of the loop. In `fclose` it has yet to write `rest`. A process
that has ended may be between its `sem_wait` and its `sem_post`. -/
inductive Pc where
  | unborn
  | semOpen
  | fork
  | semWait (i : Nat)
  | fopen (i : Nat)
  | fclose (i : Nat) (rest : Bytes)
  | semPost (i : Nat)
  | usleep (i : Nat)
  | wait
  | exited (status : Nat) (inside : Bool)
  | killed (inside : Bool)
  deriving DecidableEq, Repr

structure Sys where
  sem : Option Nat
  file : Bytes
  pc : Who → Pc

inductive Ev where
  | run (p : Who) (a : Answer)
  | kill (p : Who)
  deriving DecidableEq, Repr

def Sys.start (file : Bytes) : Sys :=
  ⟨none, file, fun p => match p with | .parent => .semOpen | .child => .unborn⟩

def Sys.goto (s : Sys) (p : Who) (pc : Pc) : Sys := { s with pc := Function.update s.pc p pc }

def Pc.inside : Pc → Bool
  | .fopen _ | .fclose _ _ | .semPost _ => true
  | .exited _ inside | .killed inside => inside
  | _ => false

def Pc.ended : Pc → Bool
  | .exited _ _ | .killed _ => true
  | _ => false

def next (p : Who) (i : Nat) : Pc :=
  if i + 1 < 5 then .semWait (i + 1)
  else
    match p with
    | .parent => .wait
    | .child => .exited 0 false

/-- `main`, with the leftovers of a former run unlinked before the semaphore is opened. Nothing that
can interrupt a `sem_wait` has a handler. What `fprintf` is given goes to the file in `fclose`,
which writes until it is all there or a write fails, and is not checked. -/
def Sys.run (s : Sys) (p : Who) (a : Answer) : Sys :=
  match s.pc p with
  | .unborn | .exited _ _ | .killed _ => s
  | .semOpen =>
    match a with
    | .fail _ => Sys.goto { s with file := [] } p (.exited 1 false)
    | .done _ => Sys.goto { s with file := [], sem := some 1 } p .fork
  | .fork =>
    match a with
    | .fail _ => s.goto p (.exited 1 false)
    | .done _ => (s.goto .child (.semWait 0)).goto .parent (.semWait 0)
  | .semWait i =>
    match s.sem with
    | some (v + 1) => Sys.goto { s with sem := some v } p (.fopen i)
    | _ => s
  | .fopen i =>
    match a with
    | .fail _ => s.goto p (.exited 1 true)
    | .done _ => s.goto p (.fclose i (line p))
  | .fclose i [] => s.goto p (.semPost i)
  | .fclose i (b :: rest) =>
    match a with
    | .fail _ => s.goto p (.semPost i)
    | .done k =>
      let c := chunk k (b :: rest).length (b :: rest)
      Sys.goto { s with file := s.file ++ c } p (.fclose i ((b :: rest).drop c.length))
  | .semPost i => Sys.goto { s with sem := s.sem.map (· + 1) } p (.usleep i)
  | .usleep i => s.goto p (next p i)
  | .wait => if (s.pc .child).ended then s.goto p (.exited 0 false) else s

def Sys.step (s : Sys) : Ev → Sys
  | .run p a => s.run p a
  | .kill p =>
    match s.pc p with
    | .unborn | .exited _ _ | .killed _ => s
    | pc => s.goto p (.killed pc.inside)

def Pc.writing : Pc → Bool
  | .fclose _ _ => true
  | _ => false

/-- Whether a process loses what it has not written of its line. -/
def torn (s : Sys) : Ev → Bool
  | .kill p => (s.pc p).writing
  | .run p a =>
    match s.pc p, a with
    | .fclose _ (_ :: _), .fail _ => true
    | _, _ => false

def Pc.early : Pc → Bool
  | .semOpen | .fork => true
  | _ => false

def Pc.Wrote (n : Nat) : Pc → Prop
  | .unborn | .semOpen | .fork => n = 0
  | .semWait i | .fopen i | .fclose i _ => n = i ∧ i < 5
  | .semPost i | .usleep i => n = i + 1 ∧ i < 5
  | .wait | .exited 0 _ => n = 5
  | .exited (_ + 1) _ | .killed _ => n ≤ 5

theorem Pc.Wrote.le {pc : Pc} (h : pc.Wrote n) : n ≤ 5 := by
  cases pc with
  | unborn | semOpen | fork => exact h.trans_le (Nat.zero_le 5)
  | semWait | fopen | fclose => exact h.1.trans_le h.2.le
  | semPost | usleep => exact h.1.trans_le h.2
  | wait => exact Nat.le_of_eq h
  | killed => exact h
  | exited status inside =>
    cases status with
    | zero => exact Nat.le_of_eq h
    | succ => exact h

theorem wrote_next (p : Who) (h : n = i + 1 ∧ i < 5) : (next p i).Wrote n := by
  unfold next
  split
  case isTrue hlt => exact ⟨h.1, hlt⟩
  case isFalse hlt =>
    have hn : n = 5 := by omega
    cases p <;> exact hn

theorem next_outside (p : Who) (i : Nat) :
    (next p i).inside = false ∧ (next p i).early = false ∧ (next p i).writing = false := by
  unfold next
  split
  · exact ⟨rfl, rfl, rfl⟩
  · cases p <;> exact ⟨rfl, rfl, rfl⟩

/-- What an event can do to a process, and whether that tears a line. -/
inductive Does (s : Sys) (p : Who) : Bool → Sys → Prop where
  | idle : Does s p b s
  | opens (hpc : s.pc p = .semOpen) :
    Does s p b (Sys.goto { s with file := [], sem := some 1 } p .fork)
  | openFails (hpc : s.pc p = .semOpen) :
    Does s p b (Sys.goto { s with file := [] } p (.exited 1 false))
  | forks (hpc : s.pc p = .fork) :
    Does s p b ((s.goto .child (.semWait 0)).goto .parent (.semWait 0))
  | takes (hpc : s.pc p = .semWait i) (hv : s.sem = some (v + 1)) :
    Does s p b (Sys.goto { s with sem := some v } p (.fopen i))
  | begins (hpc : s.pc p = .fopen i) : Does s p b (s.goto p (.fclose i (line p)))
  | writes (hpc : s.pc p = .fclose i rest) (hc : c ++ rest' = rest) :
    Does s p b (Sys.goto { s with file := s.file ++ c } p (.fclose i rest'))
  | wrote (hpc : s.pc p = .fclose i []) : Does s p b (s.goto p (.semPost i))
  | gives (hpc : s.pc p = .semPost i) :
    Does s p b (Sys.goto { s with sem := s.sem.map (· + 1) } p (.usleep i))
  | goes (hpc : s.pc p = pc) (hborn : pc ≠ .unborn) (hlive : pc.ended = false)
      (hin : pc'.inside = pc.inside) (hearly : pc'.early = false) (hwriting : pc'.writing = false)
      (htorn : pc.writing = true → b = true)
      (hwrote : b = false → ∀ n, pc.Wrote n → pc'.Wrote n) : Does s p b (s.goto p pc')

theorem run_does (s : Sys) (p : Who) (a : Answer) :
    Does s p (torn s (.run p a)) (s.run p a) := by
  unfold Sys.run
  cases hpc : s.pc p with
  | unborn | exited | killed => exact .idle
  | semOpen =>
    cases a with
    | fail e => exact .openFails hpc
    | done k => exact .opens hpc
  | fork =>
    cases a with
    | fail e =>
      exact .goes hpc nofun rfl rfl rfl rfl nofun fun _ n hn => Nat.le_trans (Nat.le_of_eq hn)
        (Nat.zero_le 5)
    | done k => exact .forks hpc
  | semWait i =>
    dsimp only
    split
    case h_1 hv => exact .takes hpc hv
    case h_2 => exact .idle
  | fopen i =>
    cases a with
    | fail e =>
      exact .goes hpc nofun rfl rfl rfl rfl nofun fun _ n hn => hn.1.trans_le hn.2.le
    | done k => exact .begins hpc
  | fclose i rest =>
    cases rest with
    | nil => exact .wrote hpc
    | cons b rest =>
      cases a with
      | fail e =>
        have htorn : torn s (.run p (.fail e)) = true := by
          simp only [torn, hpc]
        rw [htorn]
        exact .goes hpc nofun rfl rfl rfl rfl (fun _ => rfl) nofun
      | done k => exact .writes hpc (chunk_append_drop k _ _)
  | semPost i => exact .gives hpc
  | usleep i =>
    obtain ⟨hin, hearly, hwriting⟩ := next_outside p i
    exact .goes hpc nofun rfl hin hearly hwriting nofun fun _ n hn => wrote_next p hn
  | wait =>
    dsimp only
    split
    · exact .goes hpc nofun rfl rfl rfl rfl nofun fun _ n hn => hn
    · exact .idle

theorem kill_does (s : Sys) (p : Who) : Does s p (torn s (.kill p)) (s.step (.kill p)) := by
  have hkill : (Pc.killed (s.pc p).inside).inside = (s.pc p).inside := rfl
  unfold Sys.step
  dsimp only
  split
  case h_1 => exact .idle
  case h_2 => exact .idle
  case h_3 => exact .idle
  case h_4 hborn hexited hkilled =>
    have hlive : (s.pc p).ended = false := by
      unfold Pc.ended
      split
      case h_1 status inside hpc => exact (hexited status inside hpc).elim
      case h_2 inside hpc => exact (hkilled inside hpc).elim
      case h_3 => rfl
    exact .goes rfl hborn hlive hkill rfl rfl (fun h => h) fun _ _ hn => hn.le

theorem step_does (s : Sys) (e : Ev) : ∃ p, Does s p (torn s e) (s.step e) := by
  cases e with
  | run p a => exact ⟨p, run_does s p a⟩
  | kill p => exact ⟨p, kill_does s p⟩

/-- The semaphore is 0 exactly while a process is inside, or has ended there. -/
def Excl (s : Sys) (o : Option Who) : Prop :=
  HeldAt Pc.inside s.pc o ∧
    (s.sem = none ∧ o = none ∨ s.sem = some (if o = none then 1 else 0))

namespace Excl

variable {s s' : Sys}

theorem stay (h : Excl s o) (hpc : s'.pc = Function.update s.pc p pc') (hsem : s'.sem = s.sem)
    (hin : pc'.inside = (s.pc p).inside) : Excl s' o := by
  rw [Excl, hpc, hsem]
  exact ⟨h.1.stay hin, h.2⟩

theorem semWait (h : Excl s o) (hv : s.sem = some (v + 1)) (hin : pc'.inside = true) :
    o = none ∧ Excl (Sys.goto { s with sem := some v } p pc') (some p) := by
  have ho : o = none ∧ v = 0 := by
    rcases h.2 with ⟨hnone, -⟩ | hsome
    · cases hnone.symm.trans hv
    · cases o with
      | none =>
        cases hsome.symm.trans hv
        exact ⟨rfl, rfl⟩
      | some q => cases hsome.symm.trans hv
  obtain ⟨rfl, rfl⟩ := ho
  exact ⟨rfl, h.1.enter hin, .inr rfl⟩

theorem semPost (h : Excl s o) (hpc : (s.pc p).inside = true) (hin : pc'.inside = false) :
    o = some p ∧ Excl (Sys.goto { s with sem := s.sem.map (· + 1) } p pc') none := by
  obtain rfl : o = some p := (h.1 p).1 hpc
  refine ⟨rfl, h.1.leave hin, .inr ?_⟩
  rcases h.2 with ⟨-, hnone⟩ | hsome
  · cases hnone
  · show s.sem.map (· + 1) = _
    rw [hsome]
    rfl

end Excl

def Young (s : Sys) : Prop :=
  (s.pc .child = .unborn ∨ (s.pc .parent).early = false) ∧ (s.pc .child).early = false

theorem Young.move {s s' : Sys} (h : Young s) (hpc : s'.pc = Function.update s.pc p pc')
    (hborn : s.pc p ≠ .unborn) (hearly : pc'.early = false) : Young s' := by
  have hp : Who.parent ≠ .child := nofun
  rw [Young, hpc]
  cases p with
  | parent =>
    rw [Function.update_self, Function.update_of_ne hp.symm]
    exact ⟨.inr hearly, h.2⟩
  | child =>
    rw [Function.update_self, Function.update_of_ne hp]
    exact ⟨.inr (h.1.resolve_left hborn), hearly⟩

theorem Young.parent {s : Sys} (h : Young s) (hp : (s.pc p).early = true) :
    p = .parent ∧ s.pc .child = .unborn := by
  cases p with
  | parent =>
    refine ⟨rfl, h.1.resolve_right fun he => ?_⟩
    cases he.symm.trans hp
  | child => cases h.2.symm.trans hp

structure Inv (s : Sys) (o : Option Who) : Prop where
  excl : Excl s o
  young : Young s

theorem Inv.start (file : Bytes) : Inv (.start file) none where
  excl := ⟨fun p => by cases p <;> exact ⟨nofun, nofun⟩, .inl ⟨rfl, rfl⟩⟩
  young := ⟨.inl rfl, rfl⟩

section
variable {s s' : Sys}

theorem Inv.none_early (h : Inv s o) (hp : (s.pc p).early = true) : o = none := by
  obtain ⟨rfl, hchild⟩ := h.young.parent hp
  cases o with
  | none => rfl
  | some q =>
    have hin := (h.excl.1 q).2 rfl
    cases q with
    | parent =>
      unfold Pc.early at hp
      split at hp
      case h_1 hpc => rw [hpc] at hin; cases hin
      case h_2 hpc => rw [hpc] at hin; cases hin
      case h_3 => cases hp
    | child =>
      rw [hchild] at hin
      cases hin

theorem forked_pc (s : Sys) :
    ((s.goto .child (.semWait 0)).goto .parent (.semWait 0)).pc = fun _ => .semWait 0 := by
  funext p
  cases p <;> rfl

theorem Does.inv (hd : Does s p b s') (h : Inv s o) : ∃ o', Inv s' o' := by
  cases hd with
  | idle => exact ⟨o, h⟩
  | opens hpc =>
    have hearly : (s.pc p).early = true := by
      rw [hpc]
      rfl
    obtain rfl := h.none_early hearly
    obtain ⟨rfl, hchild⟩ := h.young.parent hearly
    have hin : Pc.fork.inside = (s.pc .parent).inside := by
      rw [hpc]
      rfl
    have hp : Who.child ≠ .parent := nofun
    refine ⟨none, ⟨h.excl.1.stay hin, .inr rfl⟩, ?_⟩
    have hunborn : Function.update s.pc .parent .fork .child = .unborn :=
      (Function.update_of_ne hp ..).trans hchild
    exact ⟨.inl hunborn, (congrArg Pc.early hunborn).trans rfl⟩
  | openFails hpc =>
    exact ⟨o, h.excl.stay rfl rfl (by rw [hpc]; rfl),
      h.young.move rfl (by rw [hpc]; nofun) rfl⟩
  | forks hpc =>
    obtain rfl := h.none_early (by rw [hpc]; rfl)
    refine ⟨none, ⟨?_, h.excl.2⟩, ?_⟩
    · rw [forked_pc]
      exact fun _ => ⟨nofun, nofun⟩
    · rw [Young, forked_pc]
      exact ⟨.inr rfl, rfl⟩
  | takes hpc hv =>
    exact ⟨some p, (h.excl.semWait hv rfl).2, h.young.move rfl (by rw [hpc]; nofun) rfl⟩
  | begins hpc =>
    exact ⟨o, h.excl.stay rfl rfl (by rw [hpc]; rfl),
      h.young.move rfl (by rw [hpc]; nofun) rfl⟩
  | writes hpc =>
    exact ⟨o, h.excl.stay rfl rfl (by rw [hpc]; rfl),
      h.young.move rfl (by rw [hpc]; nofun) rfl⟩
  | wrote hpc =>
    exact ⟨o, h.excl.stay rfl rfl (by rw [hpc]; rfl),
      h.young.move rfl (by rw [hpc]; nofun) rfl⟩
  | gives hpc =>
    exact ⟨none, (h.excl.semPost (by rw [hpc]; rfl) rfl).2,
      h.young.move rfl (by rw [hpc]; nofun) rfl⟩
  | goes hpc hborn hlive hin hearly =>
    subst hpc
    exact ⟨o, h.excl.stay rfl rfl hin, h.young.move rfl hborn hearly⟩

theorem writing_eq_false {pc : Pc} (h : ∀ i rest, pc ≠ .fclose i rest) : pc.writing = false := by
  cases pc with
  | fclose i rest => exact (h i rest rfl).elim
  | _ => rfl

/-- The file has the whole lines that were written, and what the process in `fclose` has written. -/
structure Lines (s : Sys) (done : List Who) (cur : Bytes) : Prop where
  file : s.file = done.flatMap line ++ cur
  writer : ∀ p i rest, s.pc p = .fclose i rest → cur ++ rest = line p
  nobody : (∀ p, (s.pc p).writing = false) → cur = []
  count : ∀ p, (s.pc p).Wrote (done.count p)

theorem Lines.move (h : Lines s done cur) (hpc : s'.pc = Function.update s.pc p pc')
    (hfile : s'.file = s.file) (hw : (s.pc p).writing = false) (hw' : pc'.writing = false)
    (hwrote : ∀ n, (s.pc p).Wrote n → pc'.Wrote n) : Lines s' done cur where
  file := hfile.trans h.file
  writer := by
    rw [hpc]
    refine (Function.forall_update_iff s.pc fun q (x : Pc) =>
      ∀ i rest, x = .fclose i rest → cur ++ rest = line q).2 ⟨?_, fun q _ => h.writer q⟩
    rintro i rest rfl
    cases hw'
  nobody := by
    intro hnone
    apply h.nobody
    intro q
    by_cases hq : q = p
    · rw [hq]
      exact hw
    · have hq' := hnone q
      rwa [hpc, Function.update_of_ne hq] at hq'
  count := by
    rw [hpc]
    exact (Function.forall_update_iff s.pc fun q (x : Pc) => x.Wrote (done.count q)).2
      ⟨hwrote _ (h.count p), fun q _ => h.count q⟩

/-- Nobody else writes while a process is inside. -/
theorem Inv.others (h : Inv s o) (hp : (s.pc p).inside = true) (hq : q ≠ p) :
    (s.pc q).writing = false := by
  apply writing_eq_false
  intro i rest hpc
  refine hq (h.excl.1.alone ?_ hp)
  rw [hpc]
  rfl

theorem Lines.begins (h : Lines s done cur) (hi : Inv s o) (hpc : s.pc p = .fopen i) :
    Lines (s.goto p (.fclose i (line p))) done [] := by
  have hin : (s.pc p).inside = true := by
    rw [hpc]
    rfl
  obtain rfl : cur = [] := by
    apply h.nobody
    intro q
    by_cases hq : q = p
    · rw [hq, hpc]
      rfl
    · exact hi.others hin hq
  refine ⟨h.file, ?_, ?_, ?_⟩
  · refine (Function.forall_update_iff s.pc fun q (x : Pc) =>
      ∀ i rest, x = .fclose i rest → [] ++ rest = line q).2 ⟨?_, fun q _ => h.writer q⟩
    intro j rest hj
    cases hj
    rfl
  · exact fun _ => rfl
  · have hcount := h.count p
    rw [hpc] at hcount
    exact (Function.forall_update_iff s.pc fun q (x : Pc) => x.Wrote (done.count q)).2
      ⟨hcount, fun q _ => h.count q⟩

theorem Lines.writes (h : Lines s done cur) (hi : Inv s o) (hpc : s.pc p = .fclose i rest)
    (hc : c ++ rest' = rest) :
    Lines (Sys.goto { s with file := s.file ++ c } p (.fclose i rest')) done (cur ++ c) := by
  have hin : (s.pc p).inside = true := by
    rw [hpc]
    rfl
  refine ⟨?_, ?_, ?_, ?_⟩
  · show s.file ++ c = _
    rw [h.file, List.append_assoc]
  · refine (Function.forall_update_iff s.pc fun q (x : Pc) =>
      ∀ i rest, x = .fclose i rest → cur ++ c ++ rest = line q).2 ⟨?_, ?_⟩
    · intro j rest'' hj
      cases hj
      rw [List.append_assoc, hc]
      exact h.writer p i rest hpc
    · intro q hq j rest'' hj
      have hw := hi.others hin hq
      rw [hj] at hw
      cases hw
  · intro hnone
    have hp := hnone p
    simp only [Sys.goto, Function.update_self] at hp
    cases hp
  · have hcount := h.count p
    rw [hpc] at hcount
    exact (Function.forall_update_iff s.pc fun q (x : Pc) => x.Wrote (done.count q)).2
      ⟨hcount, fun q _ => h.count q⟩

theorem Lines.wrote (h : Lines s done cur) (hi : Inv s o) (hpc : s.pc p = .fclose i []) :
    Lines (s.goto p (.semPost i)) (done ++ [p]) [] := by
  have hin : (s.pc p).inside = true := by
    rw [hpc]
    rfl
  have hcur : cur = line p := by
    have hw := h.writer p i [] hpc
    rwa [List.append_nil] at hw
  refine ⟨?_, ?_, fun _ => rfl, ?_⟩
  · show s.file = _
    rw [h.file, hcur, List.flatMap_append, List.append_nil, List.flatMap_singleton]
  · refine (Function.forall_update_iff s.pc fun q (x : Pc) =>
      ∀ i rest, x = .fclose i rest → [] ++ rest = line q).2 ⟨nofun, ?_⟩
    intro q hq j rest hj
    have hw := hi.others hin hq
    rw [hj] at hw
    cases hw
  · have hcount := h.count p
    rw [hpc] at hcount
    refine (Function.forall_update_iff s.pc fun q (x : Pc) =>
      x.Wrote ((done ++ [p]).count q)).2 ⟨?_, ?_⟩
    · rw [List.count_append, List.count_singleton_self]
      exact ⟨congrArg (· + 1) hcount.1, hcount.2⟩
    · intro q hq
      rw [List.count_append, List.count_singleton, if_neg fun he => hq (eq_of_beq he).symm,
        Nat.add_zero]
      exact h.count q

theorem Lines.early (h : Lines s done cur) (hy : Young s) (hp : (s.pc p).early = true) :
    p = .parent ∧ s.pc .child = .unborn ∧ cur = [] ∧ ∀ q, done.count q = 0 := by
  obtain ⟨rfl, hchild⟩ := hy.parent hp
  have hparent : (s.pc .parent).writing = false ∧ ∀ n, (s.pc .parent).Wrote n → n = 0 := by
    unfold Pc.early at hp
    split at hp
    case h_1 hpc => rw [hpc]; exact ⟨rfl, fun _ hn => hn⟩
    case h_2 hpc => rw [hpc]; exact ⟨rfl, fun _ hn => hn⟩
    case h_3 => cases hp
  have hcount := h.count .child
  rw [hchild] at hcount
  refine ⟨rfl, hchild, h.nobody ?_, ?_⟩
  · intro q
    cases q with
    | parent => exact hparent.1
    | child => rw [hchild]; rfl
  · intro q
    cases q with
    | parent => exact hparent.2 _ (h.count .parent)
    | child => exact hcount

theorem Lines.unlinked (hchild : s.pc .child = .unborn) (hfile : s'.file = [])
    (hpc : s'.pc = Function.update s.pc .parent pc') (hw : pc'.writing = false)
    (hwrote : pc'.Wrote 0) : Lines s' [] [] := by
  have hother : ∀ p, p ≠ .parent → s.pc p = .unborn := by
    intro p hp
    cases p with
    | parent => exact (hp rfl).elim
    | child => exact hchild
  refine ⟨hfile, ?_, fun _ => rfl, ?_⟩
  · rw [hpc]
    refine (Function.forall_update_iff s.pc fun q (x : Pc) =>
      ∀ i rest, x = .fclose i rest → [] ++ rest = line q).2 ⟨?_, ?_⟩
    · rintro i rest rfl
      cases hw
    · intro q hq i rest hq'
      cases (hother q hq).symm.trans hq'
  · rw [hpc]
    refine (Function.forall_update_iff s.pc fun q (x : Pc) => x.Wrote 0).2 ⟨hwrote, ?_⟩
    intro q hq
    rw [hother q hq]
    rfl

theorem Does.lines (hd : Does s p false s') (hi : Inv s o)
    (h : s.sem = none ∨ ∃ done cur, Lines s done cur) :
    s'.sem = none ∨ ∃ done cur, Lines s' done cur := by
  cases hd with
  | idle => exact h
  | opens hpc =>
    obtain ⟨rfl, hchild⟩ := hi.young.parent (by rw [hpc]; rfl)
    exact .inr ⟨[], [], .unlinked hchild rfl rfl rfl rfl⟩
  | openFails hpc =>
    obtain ⟨rfl, hchild⟩ := hi.young.parent (by rw [hpc]; rfl)
    exact .inr ⟨[], [], .unlinked hchild rfl rfl rfl (Nat.zero_le 5)⟩
  | forks hpc =>
    refine h.imp_right ?_
    rintro ⟨done, cur, h⟩
    obtain ⟨-, -, rfl, hcount⟩ := h.early hi.young (by rw [hpc]; rfl)
    refine ⟨done, [], h.file, ?_, fun _ => rfl, ?_⟩
    · rw [forked_pc]
      nofun
    · rw [forked_pc]
      exact fun q => ⟨hcount q, by decide⟩
  | takes hpc hv =>
    refine .inr ?_
    obtain hnone | ⟨done, cur, h⟩ := h
    · cases hnone.symm.trans hv
    · exact ⟨done, cur, h.move rfl rfl (by rw [hpc]; rfl) rfl (by rw [hpc]; exact fun _ hn => hn)⟩
  | begins hpc =>
    refine h.imp_right ?_
    rintro ⟨done, cur, h⟩
    exact ⟨done, [], h.begins hi hpc⟩
  | writes hpc hc =>
    refine h.imp_right ?_
    rintro ⟨done, cur, h⟩
    exact ⟨done, _, h.writes hi hpc hc⟩
  | wrote hpc =>
    refine h.imp_right ?_
    rintro ⟨done, cur, h⟩
    exact ⟨_, [], h.wrote hi hpc⟩
  | gives hpc =>
    refine h.imp (fun hnone => ?_) ?_
    · show s.sem.map (· + 1) = none
      rw [hnone]
      rfl
    · rintro ⟨done, cur, h⟩
      exact ⟨done, cur, h.move rfl rfl (by rw [hpc]; rfl) rfl (by rw [hpc]; exact fun _ hn => hn)⟩
  | goes hpc hborn hlive hin hearly hwriting htorn hwrote =>
    subst hpc
    have hw : (s.pc p).writing = false := by
      rw [← Bool.not_eq_true]
      intro hw
      cases htorn hw
    refine h.imp_right ?_
    rintro ⟨done, cur, h⟩
    exact ⟨done, cur, h.move rfl rfl hw hwriting (hwrote rfl)⟩

end

/-- However the two processes are scheduled and wherever one of them is killed or a call fails, the
file has whole lines of both, and the beginning of the one that is being written, as long as no line
is torn by a write that fails or the end of its writer. A process that has exited with 0 has written
its five lines. -/
theorem named_sem_lines (hes : saw torn Sys.step (.start file) es = false) :
    let s := run Sys.step (.start file) es
    s.sem ≠ none → ∃ (done : List Who) (cur : Bytes), s.file = done.flatMap line ++ cur ∧
      (cur ≠ [] → ∃ p i rest, s.pc p = .fclose i rest ∧ cur ++ rest = line p) ∧
      ∀ p, done.count p ≤ 5 ∧ ∀ inside, s.pc p = .exited 0 inside → done.count p = 5 := by
  intro s hsem
  have hrun : (∃ o, Inv s o) ∧ (s.sem = none ∨ ∃ done cur, Lines s done cur) := by
    refine run_invariant_of
      (fun s => (∃ o, Inv s o) ∧ (s.sem = none ∨ ∃ done cur, Lines s done cur)) ?_
      ⟨⟨none, .start file⟩, .inl rfl⟩ hes
    rintro s e he ⟨⟨o, hi⟩, hl⟩
    obtain ⟨p, hd⟩ := step_does s e
    rw [he] at hd
    exact ⟨hd.inv hi, hd.lines hi hl⟩
  obtain ⟨done, cur, h⟩ := hrun.2.resolve_left hsem
  refine ⟨done, cur, h.file, ?_, ?_⟩
  · intro hcur
    by_contra hnone
    refine hcur (h.nobody fun p => writing_eq_false fun i rest hp => hnone ?_)
    exact ⟨p, i, rest, hp, h.writer p i rest hp⟩
  · intro p
    have hcount := h.count p
    refine ⟨hcount.le, ?_⟩
    intro inside hp
    rw [hp] at hcount
    exact hcount

/-- Both processes to their end, the child first, with a file from a former run. -/
def whole : List Ev :=
  List.replicate 2 (.run .parent (.done 20)) ++ List.replicate 30 (.run .child (.done 20)) ++
    List.replicate 31 (.run .parent (.done 20))

theorem named_sem_lines_whole :
    (∀ p, (run Sys.step (.start [7]) whole).pc p = .exited 0 false) ∧
      ∃ done : List Who, (run Sys.step (.start [7]) whole).file = done.flatMap line ∧
        ∀ p, done.count p = 5 := by
  have hes : saw torn Sys.step (.start [7]) whole = false := by decide +kernel
  have hsem : (run Sys.step (.start [7]) whole).sem ≠ none := by decide +kernel
  have hpc : ∀ p, (run Sys.step (.start [7]) whole).pc p = .exited 0 false := by
    intro p
    cases p <;> decide +kernel
  obtain ⟨done, cur, hfile, hcur, hcount⟩ := named_sem_lines hes hsem
  refine ⟨hpc, done, ?_, fun p => (hcount p).2 false (hpc p)⟩
  have hnil : cur = [] := by
    by_contra hne
    obtain ⟨p, i, rest, hp, -⟩ := hcur hne
    cases (hpc p).symm.trans hp
  rw [hfile, hnil, List.append_nil]

/-- A process that has ended between its `sem_wait` and its `sem_post`. -/
structure Stuck (p : Who) (text : Bytes) (s : Sys) : Prop where
  inv : Inv s (some p)
  ended : (s.pc p).ended = true
  file : s.file = text

theorem Stuck.same {s s' : Sys} (h : Stuck p text s) (hd : Does s q b s') :
    s'.pc p = s.pc p ∧ s'.file = s.file := by
  have hin : (s.pc p).inside = true := (h.inv.excl.1 p).2 rfl
  have hlive : (s.pc q).ended = false → p ≠ q := by
    rintro hq rfl
    cases hq.symm.trans h.ended
  -- there are two processes by now
  have hearly : (s.pc q).early = true → False := by
    intro hq
    cases h.inv.none_early hq
  have hother : (s.pc q).inside = true → q = p := fun hq => h.inv.excl.1.alone hq hin
  cases hd with
  | idle => exact ⟨rfl, rfl⟩
  | opens hpc | openFails hpc | forks hpc => exact (hearly (by rw [hpc]; rfl)).elim
  | takes hpc =>
    exact ⟨Function.update_of_ne (hlive (by rw [hpc]; rfl)) .., rfl⟩
  | begins hpc | writes hpc | wrote hpc | gives hpc =>
    exact (hlive (by rw [hpc]; rfl) (hother (by rw [hpc]; rfl)).symm).elim
  | goes hpc hborn hq =>
    subst hpc
    exact ⟨Function.update_of_ne (hlive hq) .., rfl⟩

theorem Stuck.step {s s' : Sys} (h : Stuck p text s) (hd : Does s q b s') : Stuck p text s' := by
  obtain ⟨hpc, hfile⟩ := h.same hd
  obtain ⟨o, hi⟩ := hd.inv h.inv
  have hin : (s'.pc p).inside = true := by
    rw [hpc]
    exact (h.inv.excl.1 p).2 rfl
  obtain rfl := (hi.excl.1 p).1 hin
  refine ⟨hi, ?_, hfile.trans h.file⟩
  rw [hpc]
  exact h.ended

/-- At most one process is between its `sem_wait` and its `sem_post`, or has ended there. If one
has, the other one does not get in any more, and the file stays as it is. -/
theorem named_sem_exclusive (file : Bytes) (es : List Ev) :
    let s := run Sys.step (.start file) es
    (∀ p q, (s.pc p).inside = true → (s.pc q).inside = true → p = q) ∧
      ∀ p, (s.pc p).ended = true → (s.pc p).inside = true → ∀ es',
        (run Sys.step s es').file = s.file ∧
          ∀ q, q ≠ p → ((run Sys.step s es').pc q).inside = false := by
  intro s
  obtain ⟨o, h⟩ : ∃ o, Inv s o := by
    refine run_invariant (fun s => ∃ o, Inv s o) ?_ ⟨none, .start file⟩ es
    rintro s e ⟨o, hi⟩
    obtain ⟨p, hd⟩ := step_does s e
    exact hd.inv hi
  refine ⟨fun p q hp hq => h.excl.1.alone hp hq, ?_⟩
  intro p hended hin es'
  obtain rfl := (h.excl.1 p).1 hin
  have hstuck : Stuck p s.file (run Sys.step s es') := by
    refine run_invariant (Stuck p s.file) ?_ ⟨h, hended, rfl⟩ es'
    intro t e ht
    obtain ⟨q, hd⟩ := step_does t e
    exact ht.step hd
  refine ⟨hstuck.file, ?_⟩
  intro q hq
  rw [← Bool.not_eq_true, hstuck.inv.excl.1 q]
  exact fun he => hq (Option.some.inj he).symm

end SysPrg.NamedSem
