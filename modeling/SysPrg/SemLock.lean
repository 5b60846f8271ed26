import SysPrg.Run
import SysPrg.Semaphore

namespace SysPrg.SemLock
set_option autoImplicit true

/-- Where a process of `sem1` or `sem2` is. They get their semaphore in different ways (`init`) and
go on alike from the lock on. An `id` of -1 is `none`. -/
inductive Pc (ι : Type) where
  | init (i : ι)
  | lock (id : Option Nat)
  | openFile (id : Nat)
  | date (id : Nat)
  | write (id : Nat)
  | closeFailed (id : Nat)
  | unlockFailed (id : Nat)
  | sleep (id : Nat)
  | close (id : Nat)
  | unlock (id : Nat)
  | exited (err : Option String) (status : Int)
  | killed
  deriving DecidableEq, Repr

def Pc.over : Pc ι → Bool
  | .exited _ _ | .killed => true
  | _ => false

def Pc.inside : Pc ι → Bool
  | .init _ | .lock _ | .exited _ _ | .killed => false
  | _ => true

/-- The calls on the file, from their return. A failing `popen` is only reported, and the `fgets`
on its null pointer kills the process. -/
def critical : Pc ι → Answer → Pc ι
  | .openFile _, .fail _ => .exited (some "File open failure") 1
  | .openFile id, .done _ => .date id
  | .date _, .fail _ => .killed
  | .date id, .done _ => .write id
  | .write id, .fail _ => .closeFailed id
  | .write id, .done _ => .sleep id
  | .closeFailed id, _ => .unlockFailed id
  | .sleep id, _ => .close id
  | .close id, _ => .unlock id
  | pc, _ => pc

/-- All processes, and the semaphore set under `MY_KEY` if there is one. -/
structure Sys (π ι : Type) where
  sem : Option (SemSet π)
  pc : π → Pc ι

inductive Ev (π : Type) where
  | call (p : π) (a : Answer)
  | die (p : π)
  deriving DecidableEq, Repr

def Ev.proc : Ev π → π
  | .call p _ => p
  | .die p => p

/-- How a program gets its semaphore: from the return of each call, where the process goes and what
becomes of the set. -/
abbrev InitStep (π ι : Type) := Option (SemSet π) → π → ι → Answer → Pc ι × Option (SemSet π)

section
variable {π ι : Type} [DecidableEq π]

def Sys.goto (s : Sys π ι) (p : π) (pc : Pc ι) (sem : Option (SemSet π)) : Sys π ι :=
  ⟨if pc.over then sem.map (·.exit p) else sem, Function.update s.pc p pc⟩

/-- `r_semop`, which is made again when interrupted, and then one of two continuations. -/
def Sys.rSemop (s : Sys π ι) (p : π) (id : Option Nat) (os : List SemBuf) (a : Answer)
    (ok : SemSet π → Pc ι) (failed : Pc ι) : Sys π ι :=
  match semopOn s.sem p id os a with
  | .block => s
  | .fail .eintr => s
  | .fail _ => s.goto p failed s.sem
  | .done m => s.goto p (ok m) (some m)

def Sys.call (initStep : InitStep π ι) (s : Sys π ι) (p : π) (a : Answer) : Sys π ι :=
  match s.pc p with
  | .init i => s.goto p (initStep s.sem p i a).1 (initStep s.sem p i a).2
  | .lock id => s.rSemop p id lockOps a (fun m => .openFile m.id)
      (.exited (some "semaphore locking failure") 1)
  | .unlockFailed id => s.rSemop p id unlockOps a
      (fun _ => .exited (some "File write failed, aborting..") 1)
      (.exited (some "semaphore unlocking failure") 1)
  | .unlock id => s.rSemop p id unlockOps a (fun _ => .exited none 0)
      (.exited (some "semaphore unlocking failure") 1)
  | .exited _ _ => s
  | .killed => s
  | pc => s.goto p (critical pc a) s.sem

def Sys.step (initStep : InitStep π ι) (s : Sys π ι) : Ev π → Sys π ι
  | .call p a => s.call initStep p a
  | .die p => if (s.pc p).over then s else s.goto p .killed s.sem

end

def Sys.val (s : Sys π ι) : Nat := (s.sem.map (·.val)).getD 0

def Sys.inside [Fintype π] (s : Sys π ι) : Finset π :=
  Finset.univ.filter (fun p => (s.pc p).inside = true)

/-- All processes start at `i`, with no semaphore set or one of value 0. -/
structure Sys.Start (i : ι) (s : Sys π ι) : Prop where
  pc : ∀ p, s.pc p = .init i
  sem : ∀ m, s.sem = some m → m.val = 0 ∧ ∀ p, m.adj p = 0

end SysPrg.SemLock
