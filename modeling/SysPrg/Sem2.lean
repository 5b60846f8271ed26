import SysPrg.SemHeld

namespace SysPrg.Sem2
set_option autoImplicit true
open SemLock

def maxTries : Nat := 10

/-- The calls of `sem2` up to its lock. `otime` is what `seminfo.sem_otime` compares as, from the
last `semctl` that filled it in. -/
inductive Init where
  | create
  | setval (id : Nat)
  | getExisting
  | statArg (id : Option Nat)
  | poll (id : Option Nat) (i : Nat) (otime : Bool)
  | nap (id : Option Nat) (i : Nat) (otime : Bool)
  deriving DecidableEq, Repr

def setOf (sem : Option (SemSet π)) (id : Option Nat) : Option (SemSet π) :=
  match sem with
  | none => none
  | some m => if id = some m.id then some m else none

def polled (id : Option Nat) (i : Nat) (otime : Bool) : Pc Init :=
  if otime then .lock id else .init (.nap id i otime)

/-- Creating and initialising the semaphore, from the return of each call. A failing `initelement`
is only reported, as are a failing `semget` of a set that exists and the failing `semctl` calls,
after which `seminfo` is what it was, at first what the stack held (`stale`). -/
def initStep (stale : π → Bool) (sem : Option (SemSet π)) (p : π) :
    Init → Answer → Pc Init × Option (SemSet π)
  | .create, .fail .eexist => (.init .getExisting, sem)
  | .create, .fail _ => (.exited (some "semget failed.") 1, sem)
  | .create, .done k =>
    match sem with
    | some _ => (.init .getExisting, sem)
    | none => (.init (.setval k), some (.fresh k))
  | .setval id, .fail _ => (.lock (some id), sem)
  | .setval id, .done _ =>
    match setOf sem (some id) with
    | none => (.lock (some id), sem)
    | some m => (.lock (some id), some (m.setval 1))
  | .getExisting, .fail _ => (.init (.statArg none), sem)
  | .getExisting, .done _ => (.init (.statArg (sem.map (·.id))), sem)
  | .statArg id, _ => (.init (.poll id 0 (stale p)), sem)
  | .poll id i otime, .fail _ => (polled id i otime, sem)
  | .poll id i otime, .done _ =>
    match setOf sem id with
    | none => (polled id i otime, sem)
    | some m => (polled id i m.otime, sem)
  | .nap id i otime, _ =>
    if i + 1 < maxTries then (.init (.poll id (i + 1) otime), sem)
    else (.exited (some "semget succeeded but sem not initialized") 1, sem)

def step [DecidableEq π] (stale : π → Bool) : Sys π Init → Ev π → Sys π Init :=
  Sys.step (initStep stale)

def initialisesAt : Pc Init → Answer → Bool
  | .init (.setval _), .done _ => true
  | _, _ => false

def initialises (s : Sys π Init) : Ev π → Bool
  | .call p a => initialisesAt (s.pc p) a
  | .die _ => false

def refusedAt : Pc Init → Answer → Bool
  | .init .create, .fail _ => true
  | .init .getExisting, .fail _ => true
  | .init (.poll _ _ _), .fail _ => true
  | _, _ => false

def refused (s : Sys π Init) : Ev π → Bool
  | .call p a => refusedAt (s.pc p) a
  | .die _ => false

def held : Init → Option Nat
  | .create | .getExisting => none
  | .setval id => some id
  | .statArg id | .poll id _ _ | .nap id _ _ => id

theorem setOf_names {sem : Option (SemSet π)} {id : Nat} (h : Names sem (some id)) :
    ∃ m, sem = some m ∧ m.id = id ∧ setOf sem (some id) = some m := by
  obtain ⟨m, rfl, hid⟩ := h id rfl
  refine ⟨m, rfl, hid, ?_⟩
  rw [setOf, hid, if_pos rfl]

theorem polled_outside (id : Option Nat) (i : Nat) (otime : Bool) :
    (polled id i otime).inside = false ∧ (polled id i otime).id held = id := by
  cases otime with
  | true => exact ⟨rfl, rfl⟩
  | false => exact ⟨rfl, rfl⟩

theorem initStep_ok [DecidableEq π] (stale : π → Bool) (sem : Option (SemSet π)) (p : π) (i : Init)
    (a : Answer) (hnames : Names sem (held i)) (hno : ∀ id k, i = .setval id → a ≠ .done k) :
    InitOk held sem (initStep stale sem p i a) := by
  have hnone : ∀ sem : Option (SemSet π), Names sem none := fun _ i hi => by cases hi
  cases i with
  | create =>
    cases a with
    | fail e => cases e <;> exact ⟨rfl, .inl rfl, hnone _⟩
    | done k =>
      cases sem with
      | none => exact ⟨rfl, .inr ⟨rfl, k, rfl⟩, fun i hi => ⟨.fresh k, rfl, Option.some.inj hi⟩⟩
      | some m => exact ⟨rfl, .inl rfl, hnone _⟩
  | setval id =>
    cases a with
    | fail e => exact ⟨rfl, .inl rfl, hnames⟩
    | done k => exact (hno id k rfl rfl).elim
  | getExisting =>
    cases a with
    | fail e => exact ⟨rfl, .inl rfl, hnone _⟩
    | done k =>
      refine ⟨rfl, .inl rfl, ?_⟩
      intro i hi
      cases sem with
      | none => cases hi
      | some m => exact ⟨m, rfl, Option.some.inj hi⟩
  | statArg id => exact ⟨rfl, .inl rfl, hnames⟩
  | poll id i otime =>
    cases a with
    | fail e =>
      obtain ⟨hout, hid⟩ := polled_outside id i otime
      exact ⟨hout, .inl rfl, hid.symm ▸ hnames⟩
    | done k =>
      simp only [initStep]
      split
      · obtain ⟨hout, hid⟩ := polled_outside id i otime
        exact ⟨hout, .inl rfl, hid.symm ▸ hnames⟩
      · next m _ =>
        obtain ⟨hout, hid⟩ := polled_outside id i m.otime
        exact ⟨hout, .inl rfl, hid.symm ▸ hnames⟩
  | nap id i otime =>
    simp only [initStep]
    split
    · exact ⟨rfl, .inl rfl, hnames⟩
    · exact ⟨rfl, .inl rfl, hnone _⟩

section
variable [DecidableEq π] {stale : π → Bool} {s s₀ : Sys π Init} {o : Option π} {p : π}

theorem inv_step (h : Inv held s o) (e : Ev π) (he : initialises s e = false) :
    ∃ o', LockStep o o' ∧ Inv held (step stale s e) o' := by
  apply h.step e
  intro p i a hcall hpc
  apply initStep_ok
  · have hids := h.ids p
    rwa [hpc] at hids
  · rintro id k rfl rfl
    rw [hcall, initialises, hpc] at he
    cases he

theorem run_inv (h : s₀.Start .create) (hes : saw initialises (step stale) s₀ es = false) :
    ∃ o, Inv held (run (step stale) s₀ es) o := by
  apply run_invariant_of (fun s => ∃ o, Inv held s o) _ ⟨none, h.inv rfl⟩ hes
  rintro s e he ⟨o, hs⟩
  obtain ⟨o', -, hs'⟩ := inv_step hs e he
  exact ⟨o', hs'⟩

end

end SysPrg.Sem2
