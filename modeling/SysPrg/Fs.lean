import Mathlib.Logic.Function.Basic
import SysPrg.Kernel

namespace SysPrg
set_option autoImplicit true

/-- Regular files by inode, the names that lead to them, and an inode not in use: no name leads to
it or beyond. -/
structure Fs (α : Type) where
  dir : α → Option Nat
  data : Nat → Bytes
  next : Nat
  used : ∀ p i, dir p = some i → i < next

namespace Fs

def content (fs : Fs α) (p : α) : Option Bytes := (fs.dir p).map fs.data

def old (fs : Fs α) (p : α) : Bytes := (fs.content p).getD []

def write (fs : Fs α) (i off : Nat) (bs : Bytes) : Fs α :=
  { fs with data := Function.update fs.data i (writeAt (fs.data i) off bs) }

@[simp] theorem write_data_self (fs : Fs α) (i off : Nat) (bs : Bytes) :
    (fs.write i off bs).data i = writeAt (fs.data i) off bs :=
  Function.update_self ..

theorem write_data_of_ne (fs : Fs α) (off : Nat) (bs : Bytes) (h : j ≠ i) :
    (fs.write i off bs).data j = fs.data j :=
  Function.update_of_ne h ..

theorem content_eq {fs : Fs α} (h : fs.dir p = some i) : fs.content p = some (fs.data i) := by
  rw [content, h, Option.map_some]

variable [DecidableEq α]

/-- The new empty file that `O_CREAT` makes under a name that is not in use. -/
def create (fs : Fs α) (p : α) : Fs α where
  dir := Function.update fs.dir p (some fs.next)
  data := Function.update fs.data fs.next []
  next := fs.next + 1
  used := by
    intro q i h
    by_cases hq : q = p
    · subst hq
      rw [Function.update_self] at h
      cases h
      exact Nat.lt_succ_self _
    · rw [Function.update_of_ne hq] at h
      exact Nat.lt_succ_of_lt (fs.used q i h)

def openCreat (fs : Fs α) (p : α) : Fs α × Nat :=
  match fs.dir p with
  | some i => (fs, i)
  | none => (fs.create p, fs.next)

theorem openCreat_dir_self (fs : Fs α) (p : α) :
    (fs.openCreat p).1.dir p = some (fs.openCreat p).2 := by
  unfold openCreat
  cases h : fs.dir p with
  | some i => exact h
  | none => exact Function.update_self ..

theorem openCreat_data_self (fs : Fs α) (p : α) :
    (fs.openCreat p).1.data (fs.openCreat p).2 = fs.old p := by
  unfold openCreat old content
  cases h : fs.dir p with
  | some i => rfl
  | none => exact Function.update_self ..

theorem openCreat_of_dir {fs : Fs α} (h : fs.dir q = some i) (p : α) :
    (fs.openCreat p).1.dir q = some i ∧ (fs.openCreat p).1.data i = fs.data i := by
  unfold openCreat
  cases hp : fs.dir p with
  | some j => exact ⟨h, rfl⟩
  | none =>
    have hq : q ≠ p := by
      rintro rfl
      rw [h] at hp
      cases hp
    exact ⟨(Function.update_of_ne hq ..).trans h,
      Function.update_of_ne (Nat.ne_of_lt (fs.used q i h)) ..⟩

/-- `O_CREAT` opens a file that had a name only under a name of that file. -/
theorem openCreat_eq_iff {fs : Fs α} (h : fs.dir q = some i) (p : α) :
    (fs.openCreat p).2 = i ↔ fs.dir p = some i := by
  unfold openCreat
  cases hp : fs.dir p with
  | some j => exact (Option.some.injEq j i ▸ Iff.rfl)
  | none =>
    constructor
    · intro he
      exact (Nat.ne_of_lt (fs.used q i h) he.symm).elim
    · intro he
      cases he

end Fs
end SysPrg
