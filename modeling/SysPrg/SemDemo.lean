import SysPrg.Run
import SysPrg.Semaphore

namespace SysPrg.SemDemo
set_option autoImplicit true

def maxRetries : Nat := 10

/-- Where a process is: in `initsem`, up to `poll`, and then in `main`. -/
inductive Pc where
  | create
  | free (id : Nat)
  | cleanUp (id : Nat)
  | get
  | poll (id : Nat) (i : Nat)
  | pressLock (id : Nat)
  | lock (id : Nat)
  | pressUnlock (id : Nat)
  | unlock (id : Nat)
  | exited (err : Option String) (status : Int)
  | killed
  deriving DecidableEq, Repr

def Pc.over : Pc → Bool
  | .exited _ _ | .killed => true
  | _ => false

def Pc.inside : Pc → Bool
  | .pressUnlock _ | .unlock _ => true
  | _ => false

/-- The processes, and the set under their key if there is one. A set gets an identifier that no
set had before. -/
structure Sys (π : Type) where
  sem : Option (SemSet π)
  next : Nat
  pc : π → Pc

/-- `rm` is the `semctl` of a `semrm`, on the identifier that its `semget` gave it. -/
inductive Ev (π : Type) where
  | call (p : π) (a : Answer)
  | die (p : π)
  | rm (id : Nat)
  deriving DecidableEq, Repr

def freeOp : SemBuf := ⟨1, false, false⟩

def lockOp : SemBuf := ⟨-1, false, true⟩

def unlockOp : SemBuf := ⟨1, false, true⟩

def removed (sem : Option (SemSet π)) (id : Nat) : Option (SemSet π) :=
  sem.filter fun m => m.id ≠ id

section
variable {π : Type} [DecidableEq π]

def Sys.goto (s : Sys π) (p : π) (pc : Pc) (sem : Option (SemSet π)) : Sys π :=
  { s with
    sem := if pc.over then sem.map (·.exit p) else sem
    pc := Function.update s.pc p pc }

def Sys.semop (s : Sys π) (p : π) (id : Nat) (o : SemBuf) (a : Answer) (ok failed : Pc) : Sys π :=
  match semopOn s.sem p (some id) [o] a with
  | .block => s
  | .fail _ => s.goto p failed s.sem
  | .done m => s.goto p ok (some m)

/-- What `IPC_STAT` leaves in `sem_otime`: nobody looks at its result, and if it fails the buffer is
still what was on the stack. -/
def statOtime (stale : Bool) (sem : Option (SemSet π)) (id : Nat) : Answer → Bool
  | .fail _ => stale
  | .done _ =>
    match sem with
    | none => stale
    | some m => if id = m.id then m.otime else stale

def Sys.call (stale : π → Bool) (s : Sys π) (p : π) (a : Answer) : Sys π :=
  match s.pc p with
  | .create =>
    match a, s.sem with
    | .fail .eexist, _ => s.goto p .get s.sem
    | .fail _, _ => s.goto p (.exited (some "initsem") 1) s.sem
    | .done _, some _ => s.goto p .get s.sem
    | .done _, none =>
      Sys.goto { s with next := s.next + 1 } p (.free s.next) (some (.fresh s.next))
  | .free id => s.semop p id freeOp a (.pressLock id) (.cleanUp id)
  | .cleanUp id =>
    match a with
    | .fail _ => s.goto p (.exited (some "initsem") 1) s.sem
    | .done _ => s.goto p (.exited (some "initsem") 1) (removed s.sem id)
  | .get =>
    match a, s.sem with
    | .done _, some m => s.goto p (.poll m.id 0) s.sem
    | _, _ => s.goto p (.exited (some "initsem") 1) s.sem
  | .poll id i =>
    if statOtime (stale p) s.sem id a then s.goto p (.pressLock id) s.sem
    else if i + 1 < maxRetries then s.goto p (.poll id (i + 1)) s.sem
    else s.goto p (.exited (some "initsem") 1) s.sem
  | .pressLock id => s.goto p (.lock id) s.sem
  | .lock id => s.semop p id lockOp a (.pressUnlock id) (.exited (some "semop") 1)
  | .pressUnlock id => s.goto p (.unlock id) s.sem
  | .unlock id => s.semop p id unlockOp a (.exited none 0) (.exited (some "semop") 1)
  | .exited _ _ | .killed => s

def Sys.step (stale : π → Bool) (s : Sys π) : Ev π → Sys π
  | .call p a => s.call stale p a
  | .die p => if (s.pc p).over then s else s.goto p .killed s.sem
  | .rm id => { s with sem := removed s.sem id }

end

def Sys.inside [Fintype π] (s : Sys π) : Finset π :=
  Finset.univ.filter fun p => (s.pc p).inside = true

def disturbs [Fintype π] (s : Sys π) : Ev π → Bool
  | .rm _ => s.inside.Nonempty
  | _ => false

/-- All processes at their beginning, with no set or one that earlier processes have left. -/
structure Sys.Start (s : Sys π) : Prop where
  pc : ∀ p, s.pc p = .create
  left : ∀ m, s.sem = some m → m.id < s.next ∧ m.val = m.otime.toNat ∧ m.adj = fun _ => 0

def Pc.id : Pc → Option Nat
  | .free id | .cleanUp id | .poll id _ | .pressLock id | .lock id | .pressUnlock id
  | .unlock id => some id
  | .create | .get | .exited _ _ | .killed => none

def Pc.frees : Pc → Option Nat
  | .free id | .cleanUp id => some id
  | _ => none

def Pc.ready : Pc → Option Nat
  | .pressLock id | .lock id => some id
  | _ => none

theorem Pc.id_of_frees {pc : Pc} (h : pc.frees = some i) : pc.id = some i := by
  cases pc with
  | free j | cleanUp j => exact h
  | _ => cases h

theorem Pc.id_of_ready {pc : Pc} (h : pc.ready = some i) : pc.id = some i := by
  cases pc with
  | pressLock j | lock j => exact h
  | _ => cases h

variable {π : Type} [DecidableEq π] {m m' : SemSet π} {s : Sys π} {o o' : Option π} {p : π}
  {id : Nat}

/-- The adjustments, which give back what the process that has the lock took. -/
def lentAdj (o : Option π) : π → Int := Neg.neg ∘ lockAdj o

/-- From the first `semop` on, the value and the process that has the lock make one. -/
structure Lent (m : SemSet π) (o : Option π) : Prop where
  val : m.val + o.toList.length = m.otime.toNat
  adj : m.adj = lentAdj o

theorem update_lentAdj (o : Option π) (p : π) (x : Int) :
    Function.update (lentAdj o) p (-x) = Neg.neg ∘ Function.update (lockAdj o) p x :=
  (Function.comp_update Neg.neg (lockAdj o) p x).symm

theorem update_lentAdj_none (p : π) : Function.update (lentAdj none) p 1 = lentAdj (some p) :=
  (update_lentAdj none p (-1)).trans (congrArg (Neg.neg ∘ ·) (update_lockAdj_none p))

theorem update_lentAdj_some (p : π) : Function.update (lentAdj (some p)) p 0 = lentAdj none :=
  (update_lentAdj (some p) p 0).trans (congrArg (Neg.neg ∘ ·) (update_lockAdj_some p))

theorem update_lentAdj_other (h : o ≠ some p) : Function.update (lentAdj o) p 0 = lentAdj o :=
  (update_lentAdj o p 0).trans (congrArg (Neg.neg ∘ ·) (update_lockAdj_other h))

theorem lentAdj_apply (o : Option π) (p : π) : lentAdj o p = if o = some p then 1 else 0 := by
  unfold lentAdj lockAdj
  rw [Function.comp_apply]
  split <;> rfl

theorem Lent.free (h : Lent m none) (ho : m.otime = false) (p : π) :
    ∃ m', m.semop p [freeOp] = .done m' ∧ m'.id = m.id ∧ m'.otime = true ∧ Lent m' none := by
  obtain ⟨id, val, adj, otime⟩ := m
  obtain ⟨hval, rfl⟩ := h
  simp only at ho hval
  subst ho
  have hv : val = 0 := hval
  subst hv
  exact ⟨⟨id, 1, lentAdj none, true⟩, rfl, rfl, rfl, rfl, rfl⟩

theorem Lent.none_of_unset (h : Lent m o) (ho : m.otime = false) : o = none := by
  have hv := h.val
  rw [ho] at hv
  cases o with
  | none => rfl
  | some q => exact absurd hv (by simp)

theorem Lent.lock (h : Lent m o) (hd : m.semop p [lockOp] = .done m') :
    o = none ∧ m'.id = m.id ∧ m'.otime = m.otime ∧ Lent m' (some p) := by
  obtain ⟨id, val, adj, otime⟩ := m
  obtain ⟨hval, rfl⟩ := h
  simp only at hval
  cases val with
  | zero => simp [SemSet.semop, SemSet.tryOps, lockOp] at hd
  | succ val =>
    have hone : otime = true ∧ val = 0 ∧ o = none := by
      cases otime with
      | false => simp at hval
      | true =>
        cases o with
        | none => simpa using hval
        | some q => simp at hval
    obtain ⟨rfl, rfl, rfl⟩ := hone
    cases hd
    exact ⟨rfl, rfl, rfl, rfl, update_lentAdj_none p⟩

theorem Lent.lock_free (h : Lent m none) (ho : m.otime = true) (p : π) :
    ∃ m', m.semop p [lockOp] = .done m' := by
  obtain ⟨id, val, adj, otime⟩ := m
  have hv : val = 1 := by
    have := h.val
    simp only at this ho
    rw [ho] at this
    exact this
  subst hv
  exact ⟨_, rfl⟩

theorem Lent.unlock (h : Lent m (some p)) :
    ∃ m', m.semop p [unlockOp] = .done m' ∧ m'.id = m.id ∧ m'.otime = m.otime ∧ Lent m' none := by
  obtain ⟨id, val, adj, otime⟩ := m
  obtain ⟨hval, rfl⟩ := h
  have hone : otime = true ∧ val = 0 := by
    cases otime with
    | false => simp at hval
    | true => simpa using hval
  obtain ⟨rfl, rfl⟩ := hone
  have hadj : lentAdj (some p) p - 1 = 0 := by
    rw [lentAdj_apply, if_pos rfl]
    rfl
  refine ⟨⟨id, 1, Function.update (lentAdj (some p)) p 0, true⟩, ?_, rfl, rfl, rfl,
    update_lentAdj_some p⟩
  rw [← hadj]
  rfl

theorem Lent.exit (h : Lent m o) (p : π) : Lent (m.exit p) (released o p) := by
  obtain ⟨id, val, adj, otime⟩ := m
  obtain ⟨hval, rfl⟩ := h
  simp only at hval
  have hle : val ≤ 1 := by
    cases otime <;> simp at hval <;> omega
  by_cases hp : o = some p
  · subst hp
    rw [released, if_pos rfl]
    refine ⟨?_, update_lentAdj_some p⟩
    have hval' : val + 1 = otime.toNat := hval
    simp only [SemSet.exit, lentAdj_apply, if_pos, semVmx, Option.toList_none, List.length_nil]
    omega
  · rw [released, if_neg hp]
    refine ⟨?_, update_lentAdj_other hp⟩
    simp only [SemSet.exit, lentAdj_apply, if_neg hp, semVmx]
    omega

structure Owns (s : Sys π) (o : Option π) : Prop where
  inside : ∀ p, (s.pc p).inside = true ↔ o = some p
  names : ∀ p, o = some p → ∃ m, s.sem = some m ∧ (s.pc p).id = some m.id
  lent : ∀ m, s.sem = some m → Lent m o

/-- Which sets the processes know. Only the process that has created a set frees it, and no other
one goes on with the set before. -/
structure Ids (stale : π → Bool) (s : Sys π) : Prop where
  below : ∀ m, s.sem = some m → m.id < s.next
  bound : ∀ p id, (s.pc p).id = some id → id < s.next
  fresh : ∀ p id, (s.pc p).frees = some id → ∀ m, s.sem = some m → m.id = id → m.otime = false
  alone : ∀ p q id, (s.pc p).frees = some id → (s.pc q).frees = some id → p = q
  ready : ∀ p id, stale p = false → (s.pc p).ready = some id → ∀ m, s.sem = some m → m.id = id →
    m.otime = true

def Stays (sem sem' : Option (SemSet π)) : Prop :=
  ∀ m', sem' = some m' → ∃ m, sem = some m ∧ m'.id = m.id ∧ m'.otime = m.otime

omit [DecidableEq π] in
theorem Stays.refl (sem : Option (SemSet π)) : Stays sem sem := fun m' h => ⟨m', h, rfl, rfl⟩

theorem Stays.exit {sem sem' : Option (SemSet π)} (h : Stays sem sem') (p : π) :
    Stays sem (sem'.map (·.exit p)) := by
  intro m' hm'
  obtain ⟨m, hm, rfl⟩ := Option.map_eq_some_iff.1 hm'
  exact h m hm

theorem Ids.update (h : Ids stale s) {sem : Option (SemSet π)} (hs : Stays s.sem sem) {pc : Pc}
    (hid : ∀ id, pc.id = some id → id < s.next)
    (hf : ∀ id, pc.frees = some id → (s.pc p).frees = some id)
    (hr : ∀ id, stale p = false → pc.ready = some id → ∀ m, s.sem = some m → m.id = id →
      m.otime = true) :
    Ids stale { s with sem := sem, pc := Function.update s.pc p pc } := by
  have hold : ∀ q id, (Function.update s.pc p pc q).frees = some id →
      (s.pc q).frees = some id := by
    intro q id hq
    by_cases hqp : q = p
    · subst hqp
      rw [Function.update_self] at hq
      exact hf id hq
    · rwa [Function.update_of_ne hqp] at hq
  refine ⟨?_, ?_, ?_, ?_, ?_⟩
  · intro m' hm'
    obtain ⟨m, hm, he, _⟩ := hs m' hm'
    exact he ▸ h.below m hm
  · exact (Function.forall_update_iff s.pc fun _ x => ∀ id, x.id = some id → id < s.next).2
      ⟨hid, fun q _ => h.bound q⟩
  · intro q id hq m' hm' he'
    obtain ⟨m, hm, he, ho⟩ := hs m' hm'
    exact ho.trans (h.fresh q id (hold q id hq) m hm (he ▸ he'))
  · exact fun q r id hq hr' => h.alone q r id (hold q id hq) (hold r id hr')
  · intro q id hst hq m' hm' he'
    obtain ⟨m, hm, he, ho⟩ := hs m' hm'
    refine ho.trans ?_
    simp only at hq
    by_cases hqp : q = p
    · subst hqp
      rw [Function.update_self] at hq
      exact hr id hst hq m hm (he ▸ he')
    · rw [Function.update_of_ne hqp] at hq
      exact h.ready q id hst hq m hm (he ▸ he')

theorem Owns.update (h : Owns s o) {sem : Option (SemSet π)} {pc : Pc}
    (hp : pc.inside = true ↔ o' = some p) (hothers : ∀ q, q ≠ p → (o' = some q ↔ o = some q))
    (hname : o' = some p → ∃ m, sem = some m ∧ pc.id = some m.id)
    (hkeep : ∀ q, q ≠ p → o' = some q → ∀ m, s.sem = some m → ∃ m', sem = some m' ∧ m'.id = m.id)
    (hlent : ∀ m, sem = some m → Lent m o') :
    Owns { s with sem := sem, pc := Function.update s.pc p pc } o' := by
  refine ⟨?_, ?_, hlent⟩
  · refine (Function.forall_update_iff s.pc fun q x => x.inside = true ↔ o' = some q).2 ⟨hp, ?_⟩
    intro q hq
    rw [h.inside q, hothers q hq]
  · intro q hq
    by_cases hqp : q = p
    · subst hqp
      simp only [Function.update_self]
      exact hname hq
    · obtain ⟨m, hm, hid⟩ := h.names q ((hothers q hqp).1 hq)
      obtain ⟨m', hm', he⟩ := hkeep q hqp hq m hm
      simp only [Function.update_of_ne hqp]
      exact ⟨m', hm', he ▸ hid⟩

structure Inv (stale : π → Bool) (s : Sys π) (o : Option π) : Prop where
  owns : Owns s o
  ids : Ids stale s

theorem Sys.Start.inv (h : s.Start) (stale : π → Bool) : Inv stale s none := by
  refine ⟨⟨?_, nofun, ?_⟩, ⟨?_, ?_, ?_, ?_, ?_⟩⟩
  · intro p
    rw [h.pc p]
    exact ⟨nofun, nofun⟩
  · intro m hm
    obtain ⟨_, hv, ha⟩ := h.left m hm
    refine ⟨by rw [hv]; rfl, ?_⟩
    rw [ha]
    rfl
  · exact fun m hm => (h.left m hm).1
  · intro p id hp
    rw [h.pc p] at hp
    cases hp
  · intro p id hp
    rw [h.pc p] at hp
    cases hp
  · intro p q id hp
    rw [h.pc p] at hp
    cases hp
  · intro p id _ hp
    rw [h.pc p] at hp
    cases hp

theorem Inv.move (h : Inv stale s o) {pc : Pc} (hlive : pc.over = false)
    (hin : pc.inside = (s.pc p).inside)
    (hid : ∀ id, pc.id = some id → (s.pc p).id = some id ∨ ∃ m, s.sem = some m ∧ m.id = id)
    (hf : ∀ id, pc.frees = some id → (s.pc p).frees = some id)
    (hkeep : (s.pc p).inside = true → pc.id = (s.pc p).id)
    (hr : ∀ id, stale p = false → pc.ready = some id → ∀ m, s.sem = some m → m.id = id →
      m.otime = true) : Inv stale (s.goto p pc s.sem) o := by
  have hgoto : s.goto p pc s.sem = { s with sem := s.sem, pc := Function.update s.pc p pc } := by
    unfold Sys.goto
    rw [hlive]
    rfl
  rw [hgoto]
  refine ⟨h.owns.update ?_ (fun _ _ => Iff.rfl) ?_ (fun _ _ _ m hm => ⟨m, hm, rfl⟩) h.owns.lent,
    h.ids.update (Stays.refl _) ?_ hf hr⟩
  · rw [hin]
    exact h.owns.inside p
  · intro ho
    rw [hkeep ((h.owns.inside p).2 ho)]
    exact h.owns.names p ho
  · intro id hpc
    rcases hid id hpc with hid | ⟨m, hm, rfl⟩
    · exact h.ids.bound p id hid
    · exact h.ids.below m hm

theorem Inv.quit (h : Inv stale s o) (p : π) {pc : Pc} (hover : pc.over = true) :
    Inv stale (s.goto p pc s.sem) (released o p) := by
  have hnone : pc.inside = false ∧ pc.id = none ∧ pc.frees = none ∧ pc.ready = none := by
    cases pc with
    | exited err status => exact ⟨rfl, rfl, rfl, rfl⟩
    | killed => exact ⟨rfl, rfl, rfl, rfl⟩
    | _ => cases hover
  have hgoto : s.goto p pc s.sem =
      { s with sem := s.sem.map (·.exit p), pc := Function.update s.pc p pc } := by
    unfold Sys.goto
    rw [hover]
    rfl
  rw [hgoto]
  refine ⟨h.owns.update ?_ (fun q hq => released_eq_some hq) ?_ ?_ ?_,
    h.ids.update ((Stays.refl _).exit p) ?_ ?_ ?_⟩
  · rw [hnone.1]
    exact ⟨nofun, fun hr => (released_ne o p hr).elim⟩
  · exact fun hr => (released_ne o p hr).elim
  · exact fun q _ _ m hm => ⟨m.exit p, by rw [hm, Option.map_some], rfl⟩
  · intro m' hm'
    obtain ⟨m, hm, rfl⟩ := Option.map_eq_some_iff.1 hm'
    exact (h.owns.lent m hm).exit p
  · intro id hid
    rw [hnone.2.1] at hid
    cases hid
  · intro id hid
    rw [hnone.2.2.1] at hid
    cases hid
  · intro id _ hid
    rw [hnone.2.2.2] at hid
    cases hid

theorem Inv.remove (h : Inv stale s none) (id : Nat) :
    Inv stale { s with sem := removed s.sem id } none := by
  have hs : Stays s.sem (removed s.sem id) := by
    intro m' hm'
    exact ⟨m', (Option.filter_eq_some_iff.1 hm').1, rfl, rfl⟩
  have hsem : ∀ m, removed s.sem id = some m → s.sem = some m :=
    fun m hm => (Option.filter_eq_some_iff.1 hm).1
  exact ⟨⟨h.owns.inside, nofun, fun m hm => h.owns.lent m (hsem m hm)⟩,
    ⟨fun m hm => h.ids.below m (hsem m hm), h.ids.bound,
      fun p id hp m hm => h.ids.fresh p id hp m (hsem m hm), h.ids.alone,
      fun p id hst hp m hm => h.ids.ready p id hst hp m (hsem m hm)⟩⟩

theorem Inv.free (h : Inv stale s o) (hpc : s.pc p = .free id) (a : Answer) :
    Inv stale (s.semop p id freeOp a (.pressLock id) (.cleanUp id)) o := by
  have hfr : (s.pc p).frees = some id := by rw [hpc]; rfl
  unfold Sys.semop
  cases hop : semopOn s.sem p (some id) [freeOp] a with
  | block => exact h
  | fail e =>
    refine h.move rfl (by rw [hpc]; rfl) ?_ ?_ (by rw [hpc]; nofun) nofun
    · intro i hi
      rw [hpc]
      exact .inl hi
    · intro i hi
      rw [hpc]
      exact hi
  | done m' =>
    obtain ⟨m, hm, ⟨⟩, hdone⟩ := semopOn_done hop
    have ho := h.ids.fresh p m.id hfr m hm rfl
    have hlent := h.owns.lent m hm
    obtain rfl := hlent.none_of_unset ho
    obtain ⟨m₁, hm₁, hid, ho₁, hlent₁⟩ := hlent.free ho p
    rw [hdone] at hm₁
    cases hm₁
    refine ⟨h.owns.update ⟨nofun, nofun⟩ (fun _ _ => Iff.rfl) nofun nofun ?_, ?_⟩
    · rintro _ ⟨⟩
      exact hlent₁
    · -- the creator is the only one to free the set
      have hother : ∀ q i, (Function.update s.pc p (.pressLock m.id) q).frees = some i →
          q ≠ p ∧ (s.pc q).frees = some i := by
        intro q i hq
        by_cases hqp : q = p
        · subst hqp
          rw [Function.update_self] at hq
          cases hq
        · rw [Function.update_of_ne hqp] at hq
          exact ⟨hqp, hq⟩
      refine ⟨?_, ?_, ?_, ?_, ?_⟩
      · rintro _ ⟨⟩
        exact hid ▸ h.ids.below m hm
      · refine (Function.forall_update_iff s.pc fun _ x => ∀ id, x.id = some id → id < s.next).2
          ⟨?_, fun q _ => h.ids.bound q⟩
        rintro _ ⟨⟩
        exact h.ids.below m hm
      · rintro q i hq _ ⟨⟩ rfl
        obtain ⟨hqp, hq⟩ := hother q _ hq
        exact (hqp (h.ids.alone q p _ hq (hid ▸ hfr))).elim
      · exact fun q r i hq hr => h.ids.alone q r i (hother q i hq).2 (hother r i hr).2
      · rintro q i _ _ _ ⟨⟩ _
        exact ho₁

theorem Inv.lock (h : Inv stale s o) (p : π) (id : Nat) (a : Answer) :
    ∃ o', Inv stale (s.semop p id lockOp a (.pressUnlock id) (.exited (some "semop") 1)) o' := by
  unfold Sys.semop
  cases hop : semopOn s.sem p (some id) [lockOp] a with
  | block => exact ⟨o, h⟩
  | fail e => exact ⟨_, h.quit p rfl⟩
  | done m' =>
    obtain ⟨m, hm, ⟨⟩, hdone⟩ := semopOn_done hop
    obtain ⟨rfl, hid, hot, hlent⟩ := (h.owns.lent m hm).lock hdone
    refine ⟨some p, h.owns.update ⟨fun _ => rfl, fun _ => rfl⟩ ?_ ?_ ?_ ?_,
      h.ids.update ?_ ?_ nofun nofun⟩
    · exact fun q hq => ⟨fun he => (hq (Option.some.inj he).symm).elim, nofun⟩
    · exact fun _ => ⟨m', rfl, by rw [hid]; rfl⟩
    · exact fun q hq he => (hq (Option.some.inj he).symm).elim
    · rintro _ ⟨⟩
      exact hlent
    · rintro _ ⟨⟩
      exact ⟨m, hm, hid, hot⟩
    · rintro _ ⟨⟩
      exact h.ids.below m hm

theorem Inv.unlock (h : Inv stale s o) (hpc : s.pc p = .unlock id) (a : Answer) :
    ∃ o', Inv stale (s.semop p id unlockOp a (.exited none 0) (.exited (some "semop") 1)) o' := by
  have ho : o = some p := (h.owns.inside p).1 (by rw [hpc]; rfl)
  subst ho
  unfold Sys.semop
  cases hop : semopOn s.sem p (some id) [unlockOp] a with
  | block => exact ⟨_, h⟩
  | fail e => exact ⟨_, h.quit p rfl⟩
  | done m' =>
    obtain ⟨m, hm, _, hdone⟩ := semopOn_done hop
    obtain ⟨m₁, hm₁, hid, hot, hlent⟩ := (h.owns.lent m hm).unlock
    rw [hdone] at hm₁
    cases hm₁
    have hexit : Lent (m'.exit p) none := hlent.exit p
    refine ⟨none, h.owns.update ⟨nofun, nofun⟩ ?_ nofun nofun ?_, h.ids.update ?_ nofun nofun nofun⟩
    · exact fun q hq => ⟨nofun, fun he => (hq (Option.some.inj he).symm).elim⟩
    · rintro _ ⟨⟩
      exact hexit
    · rintro _ ⟨⟩
      exact ⟨m, hm, hid, hot⟩

theorem Inv.create (h : Inv stale s o) (p : π) (hsem : s.sem = none) :
    Inv stale
      (Sys.goto { s with next := s.next + 1 } p (.free s.next) (some (.fresh s.next))) o := by
  have ho : o = none := by
    cases o with
    | none => rfl
    | some q =>
      obtain ⟨m, hm, _⟩ := h.owns.names q rfl
      rw [hsem] at hm
      cases hm
  subst ho
  have hbound : ∀ q i, q ≠ p → (s.pc q).frees = some i → i ≠ s.next := by
    rintro q i _ hq rfl
    exact Nat.lt_irrefl _ (h.ids.bound q _ (Pc.id_of_frees hq))
  refine ⟨⟨?_, nofun, ?_⟩, ⟨?_, ?_, ?_, ?_, ?_⟩⟩
  · exact (Function.forall_update_iff s.pc fun q x => x.inside = true ↔ none = some q).2
      ⟨⟨nofun, nofun⟩, fun q _ => h.owns.inside q⟩
  · rintro _ ⟨⟩
    exact ⟨rfl, rfl⟩
  · rintro _ ⟨⟩
    exact Nat.lt_succ_self _
  · refine (Function.forall_update_iff s.pc fun _ x => ∀ i, x.id = some i → i < s.next + 1).2
      ⟨?_, fun q _ i hq => Nat.lt_succ_of_lt (h.ids.bound q i hq)⟩
    rintro _ ⟨⟩
    exact Nat.lt_succ_self _
  · rintro _ _ _ _ ⟨⟩ _
    rfl
  · intro q r i hq hr
    simp only [Sys.goto] at hq hr
    by_cases hqp : q = p <;> by_cases hrp : r = p
    · rw [hqp, hrp]
    · subst hqp
      rw [Function.update_self] at hq
      rw [Function.update_of_ne hrp] at hr
      exact (hbound r i hrp hr (Option.some.inj hq).symm).elim
    · subst hrp
      rw [Function.update_self] at hr
      rw [Function.update_of_ne hqp] at hq
      exact (hbound q i hqp hq (Option.some.inj hr).symm).elim
    · rw [Function.update_of_ne hqp] at hq
      rw [Function.update_of_ne hrp] at hr
      exact h.ids.alone q r i hq hr
  · rintro q i _ hq _ ⟨⟩ rfl
    simp only [Sys.goto] at hq
    by_cases hqp : q = p
    · subst hqp
      rw [Function.update_self] at hq
      cases hq
    · rw [Function.update_of_ne hqp] at hq
      exact (Nat.lt_irrefl _ (h.ids.bound q _ (Pc.id_of_ready hq))).elim

theorem Inv.cleanUp (h : Inv stale s o) (hpc : s.pc p = .cleanUp id) :
    ∃ o', Inv stale (s.goto p (.exited (some "initsem") 1) (removed s.sem id)) o' := by
  have hq : ∀ s' : Sys π, s'.sem = removed s.sem id → s'.next = s.next → s'.pc = s.pc →
      s'.goto p (.exited (some "initsem") 1) s'.sem =
        s.goto p (.exited (some "initsem") 1) (removed s.sem id) := by
    rintro ⟨_, _, _⟩ rfl rfl rfl
    rfl
  by_cases hsame : removed s.sem id = s.sem
  · rw [hsame]
    exact ⟨_, h.quit p rfl⟩
  · -- what is removed was never freed, so nobody has it
    have ho : o = none := by
      cases hsem : s.sem with
      | none =>
        rw [hsem] at hsame
        exact (hsame rfl).elim
      | some m =>
        have hid : m.id = id := by
          by_contra hne
          refine hsame ?_
          rw [hsem]
          exact Option.filter_eq_some_iff.2 ⟨rfl, decide_eq_true hne⟩
        exact (h.owns.lent m hsem).none_of_unset
          (h.ids.fresh p id (by rw [hpc]; rfl) m hsem hid)
    subst ho
    rw [← hq { s with sem := removed s.sem id } rfl rfl rfl]
    exact ⟨_, (h.remove id).quit p rfl⟩

theorem Inv.call (h : Inv stale s o) (p : π) (a : Answer) :
    ∃ o', Inv stale (s.call stale p a) o' := by
  unfold Sys.call
  cases hpc : s.pc p with
  | create =>
    have hget : Inv stale (s.goto p .get s.sem) o :=
      h.move rfl (by rw [hpc]; rfl) nofun nofun (by rw [hpc]; nofun) nofun
    simp only
    split
    · exact ⟨o, hget⟩
    · exact ⟨_, h.quit p rfl⟩
    · exact ⟨o, hget⟩
    · next hsem => exact ⟨o, h.create p hsem⟩
  | free id => exact ⟨o, h.free hpc a⟩
  | cleanUp id =>
    cases a with
    | fail e => exact ⟨_, h.quit p rfl⟩
    | done k => exact h.cleanUp hpc
  | get =>
    simp only
    split
    · next m hm =>
      refine ⟨o, h.move rfl (by rw [hpc]; rfl) ?_ nofun (by rw [hpc]; nofun) nofun⟩
      rintro _ ⟨⟩
      exact .inr ⟨m, hm, rfl⟩
    · exact ⟨_, h.quit p rfl⟩
  | poll id i =>
    simp only
    split
    · next hot =>
      refine ⟨o, h.move rfl (by rw [hpc]; rfl) ?_ nofun (by rw [hpc]; nofun) ?_⟩
      · rintro _ ⟨⟩
        rw [hpc]
        exact .inl rfl
      · rintro _ hst ⟨⟩ m hm hid
        cases a with
        | fail e => exact (Bool.false_ne_true (hst.symm.trans hot)).elim
        | done k =>
          simp only [statOtime, hm, hid, if_true] at hot
          exact hot
    · split
      · refine ⟨o, h.move rfl (by rw [hpc]; rfl) ?_ nofun (by rw [hpc]; nofun) nofun⟩
        rintro _ ⟨⟩
        rw [hpc]
        exact .inl rfl
      · exact ⟨_, h.quit p rfl⟩
  | pressLock id =>
    refine ⟨o, h.move rfl (by rw [hpc]; rfl) ?_ nofun (by rw [hpc]; nofun) ?_⟩
    · rintro _ ⟨⟩
      rw [hpc]
      exact .inl rfl
    · rintro _ hst ⟨⟩
      exact h.ids.ready p id hst (by rw [hpc]; rfl)
  | lock id => exact h.lock p id a
  | pressUnlock id =>
    refine ⟨o, h.move rfl (by rw [hpc]; rfl) ?_ nofun (by rw [hpc]; exact fun _ => rfl) nofun⟩
    rintro _ ⟨⟩
    rw [hpc]
    exact .inl rfl
  | unlock id => exact h.unlock hpc a
  | exited err status => exact ⟨o, h⟩
  | killed => exact ⟨o, h⟩

variable [Fintype π]

theorem Owns.card_inside (h : Owns s o) : s.inside.card = o.toList.length := card_of_holder h.inside

theorem Inv.step (h : Inv stale s o) (e : Ev π) (he : disturbs s e = false) :
    ∃ o', Inv stale (s.step stale e) o' := by
  cases e with
  | call p a => exact h.call p a
  | die p =>
    simp only [Sys.step]
    split
    · exact ⟨o, h⟩
    · exact ⟨_, h.quit p rfl⟩
  | rm id =>
    have ho : o = none := by
      simp only [disturbs, decide_eq_false_iff_not, Finset.not_nonempty_iff_eq_empty] at he
      have hcard := h.owns.card_inside
      rw [he, Finset.card_empty] at hcard
      cases o with
      | none => rfl
      | some q => cases hcard
    subst ho
    exact ⟨none, h.remove id⟩

/-- Whatever the order of the calls, whoever is killed or gets errors, and whoever removes the set
while it is unlocked: at most one process is between its lock and its unlock. The value with that
process makes one as soon as the creator has freed the set, and `initsem` has not returned before,
in any process whose buffer did not hold a time by accident. A lock that is free can be taken. -/
theorem semdemo_exclusive {s₀ : Sys π} (h : s₀.Start)
    (hes : saw disturbs (Sys.step stale) s₀ es = false) :
    let s := run (Sys.step stale) s₀ es
    s.inside.card ≤ 1 ∧
      ∀ m, s.sem = some m → m.val + s.inside.card = m.otime.toNat ∧
        (∀ p, stale p = false → (s.pc p).ready = some m.id → m.otime = true) ∧
        ∀ p k, s.pc p = .lock m.id → m.otime = true → s.inside = ∅ →
          (s.step stale (.call p (.done k))).pc p = .pressUnlock m.id := by
  intro s
  obtain ⟨o, hinv⟩ : ∃ o, Inv stale s o :=
    run_invariant_of (fun s => ∃ o, Inv stale s o) (fun s e he ⟨_, hs⟩ => hs.step e he)
      ⟨none, h.inv stale⟩ hes
  have hcard := hinv.owns.card_inside
  refine ⟨?_, ?_⟩
  · rw [hcard]
    cases o with
    | none => exact Nat.zero_le 1
    | some q => exact Nat.le_refl 1
  · intro m hm
    refine ⟨hcard ▸ (hinv.owns.lent m hm).val, ?_, ?_⟩
    · exact fun p hst hp => hinv.ids.ready p m.id hst hp m hm rfl
    · intro p k hpc hot hnone
      rw [hnone, Finset.card_empty] at hcard
      obtain rfl : o = none := by
        cases o with
        | none => rfl
        | some q => cases hcard
      obtain ⟨m', hm'⟩ := (hinv.owns.lent m hm).lock_free hot p
      simp only [Sys.step, Sys.call, hpc, Sys.semop, semopOn, hm, if_true, hm']
      exact Function.update_self _ _ _

def Sys.fresh : Sys (Fin 2) := ⟨none, 0, fun _ => .create⟩

/-- The second process is at its lock while the first one has it. -/
theorem semdemo_exclusive_contended :
    let es : List (Ev (Fin 2)) := List.replicate 4 (.call 0 (.done 0)) ++
      List.replicate 5 (.call 1 (.done 0))
    let s := run (Sys.step fun _ => false) Sys.fresh es
    saw disturbs (Sys.step fun _ => false) Sys.fresh es = false ∧ s.pc 0 = .pressUnlock 0 ∧
      s.pc 1 = .lock 0 ∧ s.inside.card ≤ 1 := by
  intro es s
  have hes : saw disturbs (Sys.step fun _ => false) Sys.fresh es = false := by decide
  have hstart : Sys.fresh.Start := ⟨fun _ => rfl, fun m hm => by cases hm⟩
  exact ⟨hes, by decide, by decide, (semdemo_exclusive hstart hes).1⟩

end SysPrg.SemDemo
