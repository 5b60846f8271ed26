import SysPrg.SemHeld

namespace SysPrg.Sem1
set_option autoImplicit true
open SemLock

inductive Init where
  | get
  | create
  | getAgain
  deriving DecidableEq, Repr

/-- Getting the semaphore, from the return of each `semget`. After a creation that fails other than
because the set exists, the program goes on with an `id` of -1. -/
def initStep (sem : Option (SemSet π)) (_ : π) : Init → Answer → Pc Init × Option (SemSet π)
  | .get, .fail _ => (.init .create, sem)
  | .get, .done _ =>
    match sem with
    | some m => (.lock (some m.id), sem)
    | none => (.init .create, sem)
  | .create, .fail .eexist => (.init .getAgain, sem)
  | .create, .fail _ => (.lock none, sem)
  | .create, .done k =>
    match sem with
    | some _ => (.init .getAgain, sem)
    | none => (.lock (some k), some (.fresh k))
  | .getAgain, .fail _ => (.exited (some "semget failure 1") 1, sem)
  | .getAgain, .done _ =>
    match sem with
    | some _ => (.exited (some "semget failure 2") 1, sem)
    | none => (.exited (some "semget failure 1") 1, sem)

def held : Init → Option Nat := fun _ => none

theorem initStep_ok [DecidableEq π] (sem : Option (SemSet π)) (p : π) (i : Init) (a : Answer) :
    InitOk held sem (initStep sem p i a) := by
  have hnone : ∀ sem : Option (SemSet π), Names sem none := fun _ i hi => by cases hi
  cases i with
  | get =>
    cases a with
    | fail e => exact ⟨rfl, .inl rfl, hnone _⟩
    | done k =>
      cases sem with
      | none => exact ⟨rfl, .inl rfl, hnone _⟩
      | some m => exact ⟨rfl, .inl rfl, fun i hi => ⟨m, rfl, Option.some.inj hi⟩⟩
  | create =>
    cases a with
    | fail e => cases e <;> exact ⟨rfl, .inl rfl, hnone _⟩
    | done k =>
      cases sem with
      | none => exact ⟨rfl, .inr ⟨rfl, k, rfl⟩, fun i hi => ⟨.fresh k, rfl, Option.some.inj hi⟩⟩
      | some m => exact ⟨rfl, .inl rfl, hnone _⟩
  | getAgain =>
    cases a with
    | fail e => exact ⟨rfl, .inl rfl, hnone _⟩
    | done k => cases sem <;> exact ⟨rfl, .inl rfl, hnone _⟩

def step [DecidableEq π] : Sys π Init → Ev π → Sys π Init := Sys.step initStep

theorem run_inv [DecidableEq π] {s₀ : Sys π Init} (h : s₀.Start .get) (es : List (Ev π)) :
    ∃ o, Inv held (run step s₀ es) o := by
  apply run_invariant (fun s => ∃ o, Inv held s o)
  · rintro s e ⟨o, hs⟩
    obtain ⟨o', -, hs'⟩ := hs.step e (fun p i a _ _ => initStep_ok s.sem p i a)
    exact ⟨o', hs'⟩
  · exact ⟨none, h.inv rfl⟩

/-- In every reachable state the semaphore counts the processes in their critical section, there is
at most one, and its death leaves the lock free for the others. -/
theorem lock_counts_inside [Fintype π] [DecidableEq π] {s₀ : Sys π Init} (h : s₀.Start .get)
    (es : List (Ev π)) :
    (run step s₀ es).val = (run step s₀ es).inside.card ∧ (run step s₀ es).inside.card ≤ 1 ∧
      ∀ p ∈ (run step s₀ es).inside,
        (step (run step s₀ es) (.die p)).val = 0 ∧ (step (run step s₀ es) (.die p)).inside = ∅ ∧
          ∀ q id k, (run step s₀ es).pc q = .lock (some id) →
            (step (step (run step s₀ es) (.die p)) (.call q (.done k))).pc q = .openFile id := by
  obtain ⟨o, hinv⟩ := run_inv h es
  obtain ⟨hval, hone⟩ := hinv.val_eq
  refine ⟨hval, hone, ?_⟩
  intro p hp
  have hin := (Finset.mem_filter.1 hp).2
  obtain ⟨hfree, hothers⟩ := hinv.die hin initStep
  have hempty := hfree.inside_empty
  refine ⟨?_, hempty, ?_⟩
  · obtain ⟨hval', -⟩ := hfree.val_eq
    rw [hempty, Finset.card_empty] at hval'
    exact hval'
  · intro q id k hq
    have hne : q ≠ p := by
      rintro rfl
      rw [hq] at hin
      cases hin
    exact hfree.lock_enabled ((hothers q hne).trans hq) k

def twoProcs : Sys (Fin 2) Init := ⟨none, fun _ => .init .get⟩

/-- The first process creates the set and locks it, while the second gets to the lock. -/
def firstLocks : List (Ev (Fin 2)) :=
  [.call 0 (.done 0), .call 0 (.done 7), .call 1 (.done 0), .call 0 (.fail .eintr),
    .call 0 (.done 0), .call 1 (.done 0)]

theorem lock_freed_by_death :
    (step (run step twoProcs firstLocks) (.die 0)).val = 0 ∧
      (step (step (run step twoProcs firstLocks) (.die 0)) (.call 1 (.done 0))).pc 1 =
        .openFile 7 := by
  have h : twoProcs.Start .get := ⟨fun _ => rfl, fun _ hm => by cases hm⟩
  obtain ⟨-, -, hdie⟩ := lock_counts_inside h firstLocks
  obtain ⟨hval, -, hnext⟩ := hdie 0 (by decide +kernel)
  exact ⟨hval, hnext 1 7 0 (by decide +kernel)⟩

end SysPrg.Sem1
