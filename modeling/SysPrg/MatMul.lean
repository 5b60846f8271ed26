import Mathlib.Data.BitVec
import Mathlib.Data.Matrix.Mul
import Mathlib.Algebra.BigOperators.Fin
import SysPrg.Run

namespace SysPrg.MatMul
set_option autoImplicit true

/-- An `int`, with its arithmetic modulo `2 ^ 32`. -/
abbrev Word := BitVec 32

abbrev Array2 := Nat → Nat → Word

def Array2.set (c : Array2) (i j : Nat) (v : Word) : Array2 :=
  fun i' j' => if i' = i ∧ j' = j then v else c i' j'

/-- The part of an array that the program declares, as a matrix. -/
def Array2.toMatrix (m : Array2) (n : Nat) : Matrix (Fin n) (Fin n) Word :=
  Matrix.of fun i j => m i j

def loopK (a b : Array2) (i j m : Nat) (c : Array2) : Array2 :=
  (List.range m).foldl (fun c k => c.set i j (c i j + a i k * b k j)) c

def loopJ (n : Nat) (a b : Array2) (i m : Nat) (c : Array2) : Array2 :=
  (List.range m).foldl (fun c j => loopK a b i j n c) c

def loopI (n : Nat) (a b : Array2) (m : Nat) (c : Array2) : Array2 :=
  (List.range m).foldl (fun c i => loopJ n a b i n c) c

def prcs (n : Nat) (a b : Array2) : Array2 := loopI n a b n (fun _ _ => 0)

/-- Where a thread is in the three loops of `threadfun`; `v` is the value that it is about to
write. -/
inductive Pc where
  | idle
  | loopI (i : Nat)
  | loopJ (i j : Nat)
  | loopK (i j k : Nat)
  | write (i j k : Nat) (v : Word)
  | exited
  deriving DecidableEq, Repr

inductive MainPc where
  | create (i : Nat)
  | join (i : Nat)
  | exited
  deriving DecidableEq, Repr

structure Sys where
  c : Array2
  rownos : Nat → Nat
  main : MainPc
  pc : Nat → Pc

inductive Ev where
  | main
  | thread (t : Nat)
  deriving DecidableEq, Repr

def Sys.start : Sys := ⟨fun _ _ => 0, fun _ => 0, .create 0, fun _ => .idle⟩

/-- A step of `threadfun`, for the rows below `hi`. Reading `c[i][j]` and writing it are steps of
their own; `a` and `b` do not change any more. -/
def threadfun (n : Nat) (a b : Array2) (hi : Nat) (c : Array2) : Pc → Array2 × Pc
  | .idle => (c, .idle)
  | .loopI i => (c, if i < hi then .loopJ i 0 else .exited)
  | .loopJ i j => (c, if j < n then .loopK i j 0 else .loopI (i + 1))
  | .loopK i j k => (c, if k < n then .write i j k (c i j + a i k * b k j) else .loopJ i (j + 1))
  | .write i j k v => (c.set i j v, .loopK i j (k + 1))
  | .exited => (c, .exited)

/-- A step of `main`: it starts the threads and then waits for one after the other. -/
def Sys.mainStep (n nthreads : Nat) (s : Sys) : Sys :=
  match s.main with
  | .create i =>
    if i < nthreads then
      { s with rownos := Function.update s.rownos i (i * (n / nthreads)), main := .create (i + 1),
               pc := Function.update s.pc i (.loopI (i * (n / nthreads))) }
    else { s with main := .join 0 }
  | .join i =>
    if i < nthreads then
      match s.pc i with
      | .exited => { s with main := .join (i + 1) }
      | _ => s
    else { s with main := .exited }
  | .exited => s

def Sys.step (n nthreads : Nat) (a b : Array2) (s : Sys) : Ev → Sys
  | .main => s.mainStep n nthreads
  | .thread t =>
    let r := threadfun n a b (s.rownos t + n / nthreads) s.c (s.pc t)
    { s with c := r.1, pc := Function.update s.pc t r.2 }

def psum (a b : Array2) (i j m : Nat) : Word := ∑ k ∈ Finset.range m, a i k * b k j

theorem psum_zero (a b : Array2) (i j : Nat) : psum a b i j 0 = 0 := rfl

theorem psum_succ (a b : Array2) (i j m : Nat) :
    psum a b i j (m + 1) = psum a b i j m + a i m * b m j :=
  Finset.sum_range_succ _ m

theorem psum_eq_mul (n : Nat) (a b : Array2) (i j : Fin n) :
    psum a b i j n = (a.toMatrix n * b.toMatrix n) i j := by
  rw [Matrix.mul_apply, psum, Finset.sum_range]
  rfl

theorem loopK_apply (a b : Array2) (i j m : Nat) (c : Array2) (i' j' : Nat) :
    loopK a b i j m c i' j' =
      if i' = i ∧ j' = j then c i' j' + psum a b i' j' m else c i' j' := by
  induction m generalizing i' j' with
  | zero =>
    rw [psum_zero, add_zero, ite_self]
    rfl
  | succ m ih =>
    have hstep : loopK a b i j (m + 1) c =
        (loopK a b i j m c).set i j (loopK a b i j m c i j + a i m * b m j) := by
      unfold loopK
      rw [List.range_succ, List.foldl_append, List.foldl_cons, List.foldl_nil]
    rw [hstep, Array2.set]
    by_cases h : i' = i ∧ j' = j
    · obtain ⟨rfl, rfl⟩ := h
      rw [if_pos ⟨rfl, rfl⟩, if_pos ⟨rfl, rfl⟩, ih, if_pos ⟨rfl, rfl⟩, psum_succ, add_assoc]
    · rw [if_neg h, if_neg h, ih, if_neg h]

theorem loopJ_apply (n : Nat) (a b : Array2) (i m : Nat) (c : Array2) (i' j' : Nat) :
    loopJ n a b i m c i' j' =
      if i' = i ∧ j' < m then c i' j' + psum a b i' j' n else c i' j' := by
  induction m with
  | zero =>
    rw [if_neg (fun h => Nat.not_lt_zero j' h.2)]
    rfl
  | succ m ih =>
    have hstep : loopJ n a b i (m + 1) c = loopK a b i m n (loopJ n a b i m c) := by
      unfold loopJ
      rw [List.range_succ, List.foldl_append, List.foldl_cons, List.foldl_nil]
    rw [hstep, loopK_apply, ih]
    by_cases h : i' = i ∧ j' = m
    · rw [if_pos h, if_neg (fun hlt => Nat.ne_of_lt hlt.2 h.2),
        if_pos ⟨h.1, h.2 ▸ Nat.lt_succ_self j'⟩]
    · have hiff : (i' = i ∧ j' < m + 1) ↔ (i' = i ∧ j' < m) := by omega
      rw [if_neg h, if_congr hiff rfl rfl]

theorem loopI_apply (n : Nat) (a b : Array2) (m : Nat) (c : Array2) (i' j' : Nat) :
    loopI n a b m c i' j' =
      if i' < m ∧ j' < n then c i' j' + psum a b i' j' n else c i' j' := by
  induction m with
  | zero =>
    rw [if_neg (fun h => Nat.not_lt_zero i' h.1)]
    rfl
  | succ m ih =>
    have hstep : loopI n a b (m + 1) c = loopJ n a b m n (loopI n a b m c) := by
      unfold loopI
      rw [List.range_succ, List.foldl_append, List.foldl_cons, List.foldl_nil]
    rw [hstep, loopJ_apply, ih]
    by_cases h : i' = m ∧ j' < n
    · rw [if_pos h, if_neg (fun hlt => Nat.ne_of_lt hlt.1 h.1),
        if_pos ⟨h.1 ▸ Nat.lt_succ_self i', h.2⟩]
    · have hiff : (i' < m + 1 ∧ j' < n) ↔ (i' < m ∧ j' < n) := by omega
      rw [if_neg h, if_congr hiff rfl rfl]

theorem prcs_apply (n : Nat) (a b : Array2) (i j : Nat) :
    prcs n a b i j = if i < n ∧ j < n then psum a b i j n else 0 := by
  rw [prcs, loopI_apply, zero_add]

end SysPrg.MatMul
