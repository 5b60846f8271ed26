import SysPrg.SemLock

namespace SysPrg.SemLock
set_option autoImplicit true

variable {π ι : Type}

/-- The id that a process holds, with what it holds before the lock. -/
def Pc.id (held : ι → Option Nat) : Pc ι → Option Nat
  | .init i => held i
  | .lock id => id
  | .openFile id | .date id | .write id | .closeFailed id | .unlockFailed id | .sleep id
  | .close id | .unlock id => some id
  | .exited _ _ | .killed => none

def Names (sem : Option (SemSet π)) (id : Option Nat) : Prop :=
  ∀ i, id = some i → ∃ m, sem = some m ∧ m.id = i

theorem Names.mono {sem sem' : Option (SemSet π)} {id : Option Nat} (h : Names sem id)
    (hkeep : ∀ m, sem = some m → ∃ m', sem' = some m' ∧ m'.id = m.id) : Names sem' id := by
  intro i hi
  obtain ⟨m, hm, rfl⟩ := h i hi
  exact hkeep m hm

theorem critical_keeps (held : ι → Option Nat) (pc : Pc ι) (a : Answer)
    (h : (critical pc a).over = false) :
    (critical pc a).inside = pc.inside ∧ (critical pc a).id held = pc.id held := by
  cases pc with
  | openFile id | date id =>
    cases a with
    | done k => exact ⟨rfl, rfl⟩
    | fail e => cases h
  | write id =>
    cases a with
    | done k => exact ⟨rfl, rfl⟩
    | fail e => exact ⟨rfl, rfl⟩
  | _ => exact ⟨rfl, rfl⟩

variable [DecidableEq π]

def LockOf (sem : Option (SemSet π)) (o : Option π) : Prop :=
  match sem with
  | none => o = none
  | some m => m.HeldBy o

/-- The processes use the semaphore as a lock: its holder is the one process that is in its
critical section, and every id is that of the set. -/
structure Inv (held : ι → Option Nat) (s : Sys π ι) (o : Option π) : Prop where
  inside : ∀ p, (s.pc p).inside = true ↔ o = some p
  sem : LockOf s.sem o
  ids : ∀ p, Names s.sem ((s.pc p).id held)

/-- What a step before the lock may do: go on outside of the critical section, with the set as it
was or newly created, and with its id. -/
structure InitOk (held : ι → Option Nat) (sem : Option (SemSet π)) (r : Pc ι × Option (SemSet π)) :
    Prop where
  outside : r.1.inside = false
  set : r.2 = sem ∨ sem = none ∧ ∃ k, r.2 = some (.fresh k)
  names : Names r.2 (r.1.id held)

section
variable {held : ι → Option Nat} {s : Sys π ι} {o o' : Option π} {p : π} {pc : Pc ι}
  {sem : Option (SemSet π)}

theorem LockOf.exit (h : LockOf sem o) (p : π) : LockOf (sem.map (·.exit p)) (released o p) := by
  cases sem with
  | none =>
    cases h
    rfl
  | some m => exact SemSet.HeldBy.exit h p

theorem Sys.goto_of_over (s : Sys π ι) (p : π) (sem : Option (SemSet π)) (h : pc.over = true) :
    s.goto p pc sem = ⟨sem.map (·.exit p), Function.update s.pc p pc⟩ := by
  rw [Sys.goto, if_pos h]

theorem Sys.goto_of_live (s : Sys π ι) (p : π) (sem : Option (SemSet π)) (h : pc.over = false) :
    s.goto p pc sem = ⟨sem, Function.update s.pc p pc⟩ := by
  rw [Sys.goto, if_neg (by simp [h])]

theorem Inv.update (h : Inv held s o) (hothers : ∀ q, q ≠ p → (o' = some q ↔ o = some q))
    (hpc : pc.inside = true ↔ o' = some p) (hsem : LockOf sem o')
    (hkeep : ∀ m, s.sem = some m → ∃ m', sem = some m' ∧ m'.id = m.id)
    (hid : Names sem (pc.id held)) : Inv held ⟨sem, Function.update s.pc p pc⟩ o' where
  inside := by
    intro q
    by_cases hq : q = p
    · subst hq
      simp only [Function.update_self]
      exact hpc
    · simp only [Function.update_of_ne hq]
      rw [hothers q hq]
      exact h.inside q
  sem := hsem
  ids := by
    intro q
    by_cases hq : q = p
    · subst hq
      simp only [Function.update_self]
      exact hid
    · simp only [Function.update_of_ne hq]
      exact (h.ids q).mono hkeep

theorem Inv.finish (h : Inv held s o) (hover : pc.over = true) (hsem : LockOf sem o')
    (hothers : ∀ q, q ≠ p → (o' = some q ↔ o = some q))
    (hkeep : ∀ m, s.sem = some m → ∃ m', sem = some m' ∧ m'.id = m.id) :
    Inv held (s.goto p pc sem) (released o' p) := by
  rw [Sys.goto_of_over s p sem hover]
  apply h.update
  · intro q hq
    exact (released_eq_some hq).trans (hothers q hq)
  · constructor
    · intro hin
      cases pc with
      | exited | killed => cases hin
      | _ => cases hover
    · intro he
      exact (released_ne o' p he).elim
  · exact hsem.exit p
  · intro m hm
    obtain ⟨m', rfl, hid⟩ := hkeep m hm
    exact ⟨m'.exit p, rfl, hid⟩
  · intro i hi
    cases pc with
    | exited | killed => cases hi
    | _ => cases hover

theorem Inv.ended (h : Inv held s o) (p : π) (hover : pc.over = true) :
    Inv held (s.goto p pc s.sem) (released o p) :=
  h.finish hover h.sem (fun _ _ => Iff.rfl) (fun m hm => ⟨m, hm, rfl⟩)

theorem Inv.quit (h : Inv held s o) (p : π) (hover : pc.over = true) :
    ∃ o', LockStep o o' ∧ Inv held (s.goto p pc s.sem) o' :=
  ⟨released o p, .released o p, h.ended p hover⟩

theorem Inv.move (h : Inv held s o) (hlive : pc.over = false)
    (hin : pc.inside = (s.pc p).inside) (hid : pc.id held = (s.pc p).id held) :
    Inv held (s.goto p pc s.sem) o := by
  rw [Sys.goto_of_live s p s.sem hlive]
  refine h.update (fun _ _ => Iff.rfl) ?_ h.sem (fun m hm => ⟨m, hm, rfl⟩) ?_
  · rw [hin]
    exact h.inside p
  · rw [hid]
    exact h.ids p

theorem Inv.critical (h : Inv held s o) (hpc : s.pc p = pc) (a : Answer) :
    ∃ o', LockStep o o' ∧ Inv held (s.goto p (critical pc a) s.sem) o' := by
  cases hover : (SemLock.critical pc a).over with
  | true => exact h.quit p hover
  | false =>
    obtain ⟨hin, hid⟩ := critical_keeps held pc a hover
    rw [← hpc] at hin hid
    exact ⟨o, .stay o, hpc ▸ h.move (hpc ▸ hover) hin hid⟩

theorem Inv.lock {id : Option Nat} {failed : Pc ι} (h : Inv held s o)
    (p : π) (a : Answer) (hover : failed.over = true) :
    ∃ o', LockStep o o' ∧
      Inv held (s.rSemop p id lockOps a (fun m => .openFile m.id) failed) o' := by
  unfold Sys.rSemop
  split
  · exact ⟨o, .stay o, h⟩
  · exact ⟨o, .stay o, h⟩
  · exact h.quit p hover
  · next m' hdone =>
    obtain ⟨m, hm, -, hop⟩ := semopOn_done hdone
    have hlock := h.sem
    rw [hm] at hlock
    cases o with
    | some q =>
      -- the wait for zero would have blocked
      rw [SemSet.HeldBy.lock_blocks hlock p] at hop
      cases hop
    | none =>
      obtain ⟨m'', hop', hid, hheld⟩ := SemSet.HeldBy.lock hlock p
      rw [hop] at hop'
      cases hop'
      refine ⟨some p, .acquire p, h.update ?_ ?_ hheld ?_ ?_⟩
      · intro q hq
        exact ⟨fun he => (hq (Option.some.inj he).symm).elim, fun he => by cases he⟩
      · exact ⟨fun _ => rfl, fun _ => rfl⟩
      · intro m₀ hm₀
        rw [hm] at hm₀
        cases hm₀
        exact ⟨m', rfl, hid⟩
      · intro i hi
        cases hi
        exact ⟨m', rfl, rfl⟩

theorem Inv.unlock {id : Option Nat} {failed : Pc ι} {ok : SemSet π → Pc ι} (h : Inv held s o)
    (hin : (s.pc p).inside = true) (a : Answer) (hok : ∀ m, (ok m).over = true)
    (hover : failed.over = true) :
    ∃ o', LockStep o o' ∧ Inv held (s.rSemop p id unlockOps a ok failed) o' := by
  unfold Sys.rSemop
  split
  · exact ⟨o, .stay o, h⟩
  · exact ⟨o, .stay o, h⟩
  · exact h.quit p hover
  · next m' hdone =>
    obtain ⟨m, hm, -, hop⟩ := semopOn_done hdone
    obtain rfl := (h.inside p).1 hin
    have hlock := h.sem
    rw [hm] at hlock
    obtain ⟨m'', hop', hid, hheld⟩ := SemSet.HeldBy.unlock hlock
    rw [hop] at hop'
    cases hop'
    have hlock' : LockOf (some m') none := hheld
    refine ⟨none, .release p, h.finish (hok m') hlock' ?_ ?_⟩
    · intro q hq
      exact ⟨fun he => (by cases he), fun he => (hq (Option.some.inj he).symm).elim⟩
    · intro m₀ hm₀
      rw [hm] at hm₀
      cases hm₀
      exact ⟨m', rfl, hid⟩

theorem Inv.init (h : Inv held s o) (hpc : s.pc p = .init i)
    (hinit : InitOk held s.sem (pc, sem)) :
    ∃ o', LockStep o o' ∧ Inv held (s.goto p pc sem) o' := by
  have hout : o ≠ some p := by
    intro ho
    have hin := (h.inside p).2 ho
    rw [hpc] at hin
    cases hin
  have hsem : LockOf sem o ∧ ∀ m, s.sem = some m → ∃ m', sem = some m' ∧ m'.id = m.id := by
    rcases hinit.set with hsame | ⟨hnone, k, hfresh⟩
    · obtain rfl : sem = s.sem := hsame
      exact ⟨h.sem, fun m hm => ⟨m, hm, rfl⟩⟩
    · obtain rfl : sem = some (.fresh k) := hfresh
      have hlock := h.sem
      rw [hnone] at hlock
      cases hlock
      refine ⟨SemSet.fresh_heldBy k, ?_⟩
      intro m hm
      rw [hnone] at hm
      cases hm
  obtain ⟨hlock, hkeep⟩ := hsem
  cases hover : pc.over with
  | true => exact ⟨_, .released o p, h.finish hover hlock (fun _ _ => Iff.rfl) hkeep⟩
  | false =>
    rw [Sys.goto_of_live s p sem hover]
    refine ⟨o, .stay o, h.update (fun _ _ => Iff.rfl) ?_ hlock hkeep hinit.names⟩
    constructor
    · intro hin
      have : pc.inside = false := hinit.outside
      rw [this] at hin
      cases hin
    · intro he
      exact (hout he).elim

/-- The processes refine a lock: every event is a step of it. -/
theorem Inv.step (h : Inv held s o) (e : Ev π) {initStep : InitStep π ι}
    (hinit : ∀ p i a, e = .call p a → s.pc p = .init i →
      InitOk held s.sem (initStep s.sem p i a)) :
    ∃ o', LockStep o o' ∧ Inv held (s.step initStep e) o' := by
  cases e with
  | die p =>
    simp only [Sys.step]
    split
    · exact ⟨o, .stay o, h⟩
    · exact h.quit p rfl
  | call p a =>
    simp only [Sys.step, Sys.call]
    cases hpc : s.pc p with
    | init i => exact h.init hpc (hinit p i a rfl hpc)
    | lock id => exact h.lock p a rfl
    | openFile | date | write | closeFailed | sleep | close => exact h.critical hpc a
    | unlockFailed | unlock => exact h.unlock (by rw [hpc]; rfl) a (fun _ => rfl) rfl
    | exited | killed => exact ⟨o, .stay o, h⟩

theorem Sys.goto_pc_self (s : Sys π ι) (p : π) (pc : Pc ι) (sem : Option (SemSet π)) :
    (s.goto p pc sem).pc p = pc :=
  Function.update_self ..

theorem Sys.goto_pc_other (s : Sys π ι) {q : π} (hq : q ≠ p) (pc : Pc ι)
    (sem : Option (SemSet π)) : (s.goto p pc sem).pc q = s.pc q :=
  Function.update_of_ne hq ..

/-- A step that leaves its process at the lock or behind it, and the semaphore set in being. -/
def Sys.Passes (s s' : Sys π ι) (p : π) : Prop :=
  ∃ pc sem, s' = s.goto p pc sem ∧ (∀ i, pc ≠ .init i) ∧ (sem = none → s.sem = none)

theorem Sys.rSemop_cases (s : Sys π ι) (p : π) (id : Option Nat) (os : List SemBuf) (a : Answer)
    {ok : SemSet π → Pc ι} {failed : Pc ι} (hok : ∀ m i, ok m ≠ .init i)
    (hfailed : ∀ i, failed ≠ .init i) :
    s.rSemop p id os a ok failed = s ∨ s.Passes (s.rSemop p id os a ok failed) p := by
  unfold Sys.rSemop
  split
  · exact .inl rfl
  · exact .inl rfl
  · exact .inr ⟨failed, s.sem, rfl, hfailed, fun h => h⟩
  · next m _ => exact .inr ⟨ok m, some m, rfl, hok m, fun h => by cases h⟩

theorem critical_ne_init (hpc : ∀ i, pc ≠ .init i) (a : Answer) (i : ι) :
    critical pc a ≠ .init i := by
  cases pc with
  | init j => exact (hpc j rfl).elim
  | openFile | date | write => cases a <;> exact fun h => by cases h
  | _ => exact fun h => by cases h

theorem Sys.step_cases (s : Sys π ι) (e : Ev π) (initStep : InitStep π ι) :
    s.step initStep e = s ∨
      (∃ i a, e = .call e.proc a ∧ s.pc e.proc = .init i ∧ s.step initStep e =
        s.goto e.proc (initStep s.sem e.proc i a).1 (initStep s.sem e.proc i a).2) ∨
      s.Passes (s.step initStep e) e.proc := by
  cases e with
  | die p =>
    simp only [Sys.step]
    split
    · exact .inl rfl
    · exact .inr (.inr ⟨.killed, s.sem, rfl, (fun _ h => by cases h), fun h => h⟩)
  | call p a =>
    simp only [Sys.step, Sys.call, Ev.proc]
    cases hpc : s.pc p with
    | init i => exact .inr (.inl ⟨i, a, rfl, rfl, rfl⟩)
    | lock | unlock | unlockFailed =>
      refine Or.imp_right .inr (s.rSemop_cases p _ _ a ?_ ?_)
      · intro m i h
        cases h
      · intro i h
        cases h
    | exited | killed => exact .inl rfl
    | openFile | date | write | closeFailed | sleep | close =>
      exact .inr (.inr ⟨_, s.sem, rfl, critical_ne_init (fun _ h => by cases h) a, fun h => h⟩)

theorem Sys.step_pc_other (s : Sys π ι) {e : Ev π} {q : π} (hq : q ≠ e.proc)
    (initStep : InitStep π ι) :
    (s.step initStep e).pc q = s.pc q := by
  rcases s.step_cases e initStep with h | ⟨i, a, -, -, h⟩ | ⟨pc, sem, h, -, -⟩
  · rw [h]
  · rw [h, Sys.goto_pc_other s hq]
  · rw [h, Sys.goto_pc_other s hq]

theorem Inv.val_eq [Fintype π] (h : Inv held s o) : s.val = s.inside.card ∧ s.inside.card ≤ 1 := by
  have hcard : s.inside.card = o.toList.length := card_of_holder h.inside
  have hval : s.val = o.toList.length := by
    have hlock := h.sem
    unfold Sys.val
    cases hs : s.sem with
    | none =>
      rw [hs] at hlock
      cases hlock
      rfl
    | some m =>
      rw [hs] at hlock
      exact SemSet.HeldBy.val hlock
  refine ⟨hval.trans hcard.symm, ?_⟩
  rw [hcard]
  cases o with
  | none => exact Nat.zero_le _
  | some q => exact Nat.le_refl _

/-- With nobody inside, the lock is taken by the next process that tries. -/
theorem Inv.lock_enabled {id : Nat} {initStep : InitStep π ι} (h : Inv held s none)
    (hpc : s.pc p = .lock (some id)) (k : Nat) :
    (s.step initStep (.call p (.done k))).pc p = .openFile id := by
  obtain ⟨m, hm, hid⟩ := h.ids p id (by rw [hpc]; rfl)
  have hlock := h.sem
  rw [hm] at hlock
  obtain ⟨m', hop, hid', -⟩ := SemSet.HeldBy.lock hlock p
  simp only [Sys.step, Sys.call, hpc, Sys.rSemop, semopOn, hm, hid, if_true, hop]
  rw [Sys.goto_of_live s p _ rfl]
  simp only [Function.update_self, hid', hid]

theorem Inv.die (h : Inv held s o) (hin : (s.pc p).inside = true) (initStep : InitStep π ι) :
    Inv held (s.step initStep (.die p)) none ∧
      ∀ q, q ≠ p → (s.step initStep (.die p)).pc q = s.pc q := by
  obtain rfl := (h.inside p).1 hin
  have hlive : (s.pc p).over = false := by
    cases hpc : s.pc p with
    | exited | killed =>
      rw [hpc] at hin
      cases hin
    | _ => rfl
  simp only [Sys.step, hlive, Bool.false_eq_true, if_false]
  constructor
  · have hover : (Pc.killed : Pc ι).over = true := rfl
    have hend := h.ended p hover
    rwa [released, if_pos rfl] at hend
  · intro q hq
    rw [Sys.goto_of_over s p _ rfl]
    exact Function.update_of_ne hq ..

theorem Inv.inside_empty [Fintype π] (h : Inv held s none) : s.inside = ∅ := by
  apply Finset.filter_false_of_mem
  intro p _ hp
  exact Option.some_ne_none p ((h.inside p).1 hp).symm

theorem Sys.Start.inv {i : ι} (h : s.Start i) (hi : held i = none) : Inv held s none where
  inside := by
    intro p
    rw [h.pc p]
    exact ⟨fun he => (by cases he), fun he => (by cases he)⟩
  sem := by
    cases hs : s.sem with
    | none => rfl
    | some m =>
      obtain ⟨hval, hadj⟩ := h.sem m hs
      exact ⟨hval, funext hadj⟩
  ids := by
    intro p j hj
    rw [h.pc p] at hj
    rw [Pc.id, hi] at hj
    cases hj

end

end SysPrg.SemLock
