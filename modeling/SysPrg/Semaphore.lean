import Mathlib.Logic.Function.Basic
import Mathlib.Data.Fintype.Card
import SysPrg.Kernel

namespace SysPrg
set_option autoImplicit true

structure SemBuf where
  op : Int
  nowait : Bool
  undo : Bool
  deriving DecidableEq, Repr

/-- A set of one semaphore, with the adjustment that each process has on it and whether a `semop`
has ever succeeded. -/
structure SemSet (π : Type) where
  id : Nat
  val : Nat
  adj : π → Int
  otime : Bool

inductive SemResult (π : Type) where
  | done (m : SemSet π)
  | block
  | fail (e : Errno)

def semVmx : Nat := 32767

namespace SemSet

def fresh (id : Nat) : SemSet π := ⟨id, 0, fun _ => 0, false⟩

/-- `semctl` with `SETVAL`, which clears the adjustments of all processes. -/
def setval (m : SemSet π) (val : Nat) : SemSet π := { m with val := val, adj := fun _ => 0 }

variable [DecidableEq π]

def add (m : SemSet π) (p : π) (o : SemBuf) : SemSet π :=
  { m with
    val := (m.val + o.op).toNat
    adj := if o.undo then Function.update m.adj p (m.adj p - o.op) else m.adj }

/-- The operations one after the other, as if nothing else happened in between. -/
def tryOps (m : SemSet π) (p : π) : List SemBuf → SemResult π
  | [] => .done m
  | o :: os =>
    if (o.op = 0 ∧ m.val ≠ 0) ∨ m.val + o.op < 0 then
      if o.nowait then .fail .eagain else .block
    else if (semVmx : Int) < m.val + o.op then .fail (.other 34)
    else (m.add p o).tryOps p os

def semop (m : SemSet π) (p : π) (os : List SemBuf) : SemResult π :=
  match m.tryOps p os with
  | .done m' => .done { m' with otime := true }
  | r => r

theorem tryOps_id {m m' : SemSet π} (h : m.tryOps p os = .done m') : m'.id = m.id := by
  induction os generalizing m with
  | nil =>
    cases h
    rfl
  | cons o os ih =>
    simp only [tryOps] at h
    split at h
    · split at h <;> cases h
    · split at h
      · cases h
      · exact (ih h).trans rfl

theorem semop_id {m m' : SemSet π} (h : m.semop p os = .done m') : m'.id = m.id := by
  simp only [semop] at h
  cases hops : m.tryOps p os with
  | done m₁ =>
    rw [hops] at h
    cases h
    have hid := tryOps_id hops
    exact hid
  | block | fail =>
    rw [hops] at h
    cases h

/-- The adjustment that the kernel makes when a process ends. -/
def exit (m : SemSet π) (p : π) : SemSet π :=
  { m with val := min semVmx (m.val + m.adj p).toNat, adj := Function.update m.adj p 0 }

end SemSet

section
variable {π : Type} [DecidableEq π] {sem : Option (SemSet π)} {p : π} {id : Option Nat}
  {os : List SemBuf} {m' : SemSet π}

/-- A `semop` on an identifier, which may not be that of the set. -/
def semopOn (sem : Option (SemSet π)) (p : π) (id : Option Nat) (os : List SemBuf) :
    Answer → SemResult π
  | .fail e => .fail e
  | .done _ =>
    match sem with
    | none => .fail .einval
    | some m => if id = some m.id then m.semop p os else .fail .einval

theorem semopOn_done (h : semopOn sem p id os a = .done m') :
    ∃ m, sem = some m ∧ id = some m.id ∧ m.semop p os = .done m' := by
  cases a with
  | fail e => cases h
  | done k =>
    cases sem with
    | none => cases h
    | some m =>
      simp only [semopOn] at h
      split at h
      · next hid => exact ⟨m, rfl, hid, h⟩
      · cases h

end

/-- Wait for zero, then add one. -/
def lockOps : List SemBuf := [⟨0, false, false⟩, ⟨1, false, true⟩]

def unlockOps : List SemBuf := [⟨-1, true, true⟩]

/-- A lock seen from outside: it is taken only when free, and given back by its holder or by the
end of its holder. -/
inductive LockStep : Option π → Option π → Prop where
  | stay (o : Option π) : LockStep o o
  | acquire (p : π) : LockStep none (some p)
  | release (p : π) : LockStep (some p) none

theorem card_of_holder [Fintype π] {o : Option π} {at_ : π → Bool}
    (h : ∀ p, at_ p = true ↔ o = some p) :
    (Finset.univ.filter (fun p => at_ p = true)).card = o.toList.length := by
  cases o with
  | none =>
    rw [Finset.filter_false_of_mem (fun p _ hp => Option.some_ne_none p ((h p).1 hp).symm)]
    rfl
  | some q =>
    have hq : Finset.univ.filter (fun p => at_ p = true) = {q} := by
      ext p
      rw [Finset.mem_filter, Finset.mem_singleton, h p]
      exact ⟨fun hp => (Option.some.inj hp.2).symm, fun hp => ⟨Finset.mem_univ p, hp ▸ rfl⟩⟩
    rw [hq]
    rfl

variable [DecidableEq π] {m : SemSet π} {p q : π} {o : Option π}

/-- The adjustments that go with a lock: one for its holder, to take back what it added. -/
def lockAdj (o : Option π) (p : π) : Int := if o = some p then -1 else 0

theorem update_lockAdj_none (p : π) : Function.update (lockAdj none) p (-1) = lockAdj (some p) := by
  funext q
  by_cases hq : q = p
  · subst hq
    rw [Function.update_self, lockAdj, if_pos rfl]
  · rw [Function.update_of_ne hq, lockAdj, lockAdj, if_neg (Option.some_ne_none q).symm,
      if_neg (fun he => hq (Option.some.inj he).symm)]

theorem update_lockAdj_some (p : π) : Function.update (lockAdj (some p)) p 0 = lockAdj none := by
  rw [← update_lockAdj_none, Function.update_idem]
  exact Function.update_eq_self_iff.2 rfl

theorem update_lockAdj_other (h : o ≠ some p) :
    Function.update (lockAdj o) p 0 = lockAdj o := by
  rw [Function.update_eq_self_iff, lockAdj, if_neg h]

structure SemSet.HeldBy (m : SemSet π) (o : Option π) : Prop where
  val : m.val = o.toList.length
  adj : m.adj = lockAdj o

theorem SemSet.fresh_heldBy (id : Nat) : (SemSet.fresh id : SemSet π).HeldBy none :=
  ⟨rfl, rfl⟩

theorem SemSet.HeldBy.lock (h : m.HeldBy none) (p : π) :
    ∃ m', m.semop p lockOps = .done m' ∧ m'.id = m.id ∧ m'.HeldBy (some p) := by
  obtain ⟨id, val, adj, otime⟩ := m
  obtain ⟨rfl, rfl⟩ := h
  exact ⟨⟨id, 1, Function.update (lockAdj none) p (-1), true⟩, rfl, rfl, rfl,
    update_lockAdj_none p⟩

theorem SemSet.HeldBy.lock_blocks (h : m.HeldBy (some q)) (p : π) :
    m.semop p lockOps = .block := by
  obtain ⟨id, val, adj, otime⟩ := m
  obtain ⟨rfl, rfl⟩ := h
  rfl

theorem SemSet.HeldBy.unlock (h : m.HeldBy (some p)) :
    ∃ m', m.semop p unlockOps = .done m' ∧ m'.id = m.id ∧ m'.HeldBy none := by
  obtain ⟨id, val, adj, otime⟩ := m
  obtain ⟨rfl, rfl⟩ := h
  have hadj : lockAdj (some p) p - -1 = 0 := by
    rw [lockAdj, if_pos rfl]
    rfl
  refine ⟨⟨id, 0, Function.update (lockAdj (some p)) p 0, true⟩, ?_, rfl, rfl,
    update_lockAdj_some p⟩
  rw [← hadj]
  rfl

def released (o : Option π) (p : π) : Option π := if o = some p then none else o

theorem released_ne (o : Option π) (p : π) : released o p ≠ some p := by
  unfold released
  split
  · exact (Option.some_ne_none p).symm
  · next h => exact h

theorem released_eq_some (hq : q ≠ p) : released o p = some q ↔ o = some q := by
  unfold released
  split
  · next h =>
    rw [h]
    exact ⟨fun he => (by cases he), fun he => (hq (Option.some.inj he).symm).elim⟩
  · exact Iff.rfl

theorem LockStep.released (o : Option π) (p : π) : LockStep o (released o p) := by
  unfold SysPrg.released
  split
  · next h =>
    subst h
    exact .release p
  · exact .stay o

/-- The end of the holder frees the lock, and the end of any other process changes nothing. -/
theorem SemSet.HeldBy.exit (h : m.HeldBy o) (p : π) : (m.exit p).HeldBy (released o p) := by
  obtain ⟨id, val, adj, otime⟩ := m
  obtain ⟨rfl, rfl⟩ := h
  by_cases hp : o = some p
  · subst hp
    rw [released, if_pos rfl]
    refine ⟨?_, update_lockAdj_some p⟩
    simp only [SemSet.exit, lockAdj, if_pos]
    rfl
  · rw [released, if_neg hp]
    refine ⟨?_, update_lockAdj_other hp⟩
    simp only [SemSet.exit, lockAdj, if_neg hp]
    cases o with
    | none => rfl
    | some q => rfl

end SysPrg
