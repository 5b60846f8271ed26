import Mathlib.Data.List.TakeDrop
import Mathlib.Data.List.TakeWhile
import Mathlib.Data.Int.Order.Basic
import Mathlib.Algebra.Order.Group.Nat

namespace SysPrg
set_option autoImplicit true

abbrev Bytes := List UInt8

def cStr (bs : Bytes) : Bytes := bs.takeWhile (· ≠ 0)

theorem cStr_eq_self (h : (0 : UInt8) ∉ bs) : cStr bs = bs := by
  rw [cStr, List.takeWhile_eq_self_iff]
  intro b hb
  exact decide_eq_true (fun he => h (he ▸ hb))

/-- The values of `errno` that the programs tell apart. -/
inductive Errno where
  | eintr
  | eagain
  | eexist
  | einval
  | enoent
  | epipe
  | other (code : Nat)
  deriving DecidableEq, Repr

/-- How the kernel completes a call. A transfer answered by `done k` moves at most `k + 1`
bytes, hence at least one when there is one to move. -/
inductive Answer where
  | done (k : Nat)
  | fail (e : Errno)
  deriving DecidableEq, Repr

def Answer.toUnit : Answer → Except Errno Unit
  | .done _ => .ok ()
  | .fail e => .error e

/-- The conversion of a wider integer to a 32-bit `int`. -/
@[irreducible] def toInt (n : Int) : Int := n.bmod (2 ^ 32)

theorem toInt_of_lt {n : Nat} (h : n < 2 ^ 31) : toInt n = n := by
  unfold toInt
  rw [Int.bmod_eq_of_le] <;> omega

/-- The bytes moved by one transfer of at most `count` bytes out of `bs`. -/
def chunk (k count : Nat) (bs : Bytes) : Bytes := bs.take (min (k + 1) count)

theorem chunk_length (k count : Nat) (bs : Bytes) :
    (chunk k count bs).length = min (min (k + 1) count) bs.length := by
  simp only [chunk, List.length_take]

theorem chunk_eq_take (k count : Nat) (bs : Bytes) :
    chunk k count bs = bs.take (chunk k count bs).length := by
  rw [chunk_length]
  exact List.take_eq_take_min

theorem chunk_append_drop (k count : Nat) (bs : Bytes) :
    chunk k count bs ++ bs.drop (chunk k count bs).length = bs := by
  conv_lhs => lhs; rw [chunk_eq_take]
  exact List.take_append_drop _ _

theorem chunk_eq_nil (hc : 0 < count) : chunk k count bs = [] ↔ bs = [] := by
  unfold chunk
  rw [List.take_eq_nil_iff]
  constructor
  · rintro (h | h)
    · omega
    · exact h
  · exact .inr

theorem chunk_eq_self (k : Nat) (bs : Bytes) : chunk k bs.length bs = bs ↔ bs.length ≤ k + 1 := by
  rw [chunk, List.take_eq_self_iff]
  omega

/-- A file's content after `bs` has been written at offset `off`. A gap is filled with zeros,
and writing nothing does not extend the file. -/
def writeAt (data : Bytes) (off : Nat) (bs : Bytes) : Bytes :=
  if bs = [] then data
  else data.take off ++ List.replicate (off - data.length) 0 ++ bs ++ data.drop (off + bs.length)

theorem writeAt_end (data bs : Bytes) : writeAt data data.length bs = data ++ bs := by
  unfold writeAt
  split
  · next h => rw [h, List.append_nil]
  · rw [List.take_length, Nat.sub_self, List.replicate_zero, List.append_nil,
      List.drop_of_length_le (Nat.le_add_right _ _), List.append_nil]

theorem writeAt_cover (xs old bs : Bytes) :
    writeAt (xs ++ old.drop xs.length) xs.length bs =
      xs ++ bs ++ old.drop (xs.length + bs.length) := by
  unfold writeAt
  split
  · next h => rw [h, List.append_nil, List.length_nil, Nat.add_zero]
  · have hgap : xs.length - (xs ++ old.drop xs.length).length = 0 := by
      rw [List.length_append]
      omega
    rw [hgap, List.replicate_zero, List.append_nil, List.take_left, ← List.drop_drop,
      List.drop_left, List.drop_drop]

theorem writeAt_start (data bs : Bytes) : writeAt data 0 bs = bs ++ data.drop bs.length := by
  have h := writeAt_cover [] data bs
  rwa [List.length_nil, List.drop_zero, List.nil_append, List.nil_append, Nat.zero_add] at h

theorem drop_writeAt (data : Bytes) (off : Nat) (bs : Bytes) :
    (writeAt data off bs).drop (off + bs.length) = data.drop (off + bs.length) := by
  unfold writeAt
  split
  · rfl
  · apply List.drop_left'
    simp only [List.length_append, List.length_take, List.length_replicate]
    omega

theorem writeAt_last (h : data ≠ []) (b : UInt8) :
    writeAt data (data.length - 1) [b] = data.dropLast ++ [b] := by
  have hpos := List.length_pos_iff.2 h
  have hgap : data.length - 1 - data.length = 0 := by omega
  have hend : data.length - 1 + [b].length = data.length := by
    rw [List.length_singleton]
    omega
  rw [writeAt, if_neg (List.cons_ne_nil _ _), hgap, List.replicate_zero, List.append_nil, hend,
    List.drop_length, List.append_nil, List.dropLast_eq_take]

structure OpenFile where
  data : Bytes
  off : Nat
  deriving DecidableEq, Repr

def OpenFile.next (f : OpenFile) (k count : Nat) : Bytes := chunk k count (f.data.drop f.off)

def OpenFile.read (f : OpenFile) (count : Nat) : Answer → Except Errno Bytes
  | .done k => .ok (f.next k count)
  | .fail e => .error e

def OpenFile.advance (f : OpenFile) (n : Nat) : OpenFile := { f with off := f.off + n }

theorem OpenFile.take_advance (f : OpenFile) (k count : Nat) :
    f.data.take (f.advance (f.next k count).length).off =
      f.data.take f.off ++ f.next k count := by
  simp only [OpenFile.advance, OpenFile.next, List.take_add, ← chunk_eq_take]

def OpenFile.write (f : OpenFile) (bs : Bytes) : OpenFile :=
  ⟨writeAt f.data f.off bs, f.off + bs.length⟩

/-- One direction of a connection: all the bytes ever written to it, how many of them have been
read, and whether the writing side is closed. -/
structure Stream where
  wr : Bytes
  rd : Nat
  shut : Bool
  deriving DecidableEq, Repr

def Stream.fresh : Stream := ⟨[], 0, false⟩

def Stream.inFlight (s : Stream) : Bytes := s.wr.drop s.rd

def Stream.send (s : Stream) (bs : Bytes) : Stream := { s with wr := s.wr ++ bs }

def Stream.close (s : Stream) : Stream := { s with shut := true }

/-- A `read` on a stream: it blocks while nothing is in flight and the writer may still write,
and delivers nothing only after the last byte. -/
def Stream.recv (s : Stream) (k count : Nat) : Option (Bytes × Stream) :=
  let bs := chunk k count s.inFlight
  if bs = [] ∧ s.shut = false then none else some (bs, { s with rd := s.rd + bs.length })

theorem Stream.recv_wr {s t : Stream} (h : s.recv k count = some (bs, t)) : t.wr = s.wr := by
  simp only [Stream.recv] at h
  split at h
  · cases h
  · cases h
    rfl

theorem Stream.recv_isPrefix {s t : Stream} (hrd : s.rd = 0)
    (h : s.recv k count = some (bs, t)) : bs <+: s.wr := by
  simp only [Stream.recv, Stream.inFlight, hrd, List.drop_zero] at h
  split at h
  · cases h
  · cases h
    exact List.take_prefix _ _

theorem Stream.recv_spec {s t : Stream} (hc : 0 < count) (hrd : s.rd ≤ s.wr.length)
    (h : s.recv k count = some (bs, t)) :
    t.wr = s.wr ∧ t.shut = s.shut ∧ t.rd ≤ t.wr.length ∧ bs.length ≤ count ∧
      t.wr.take t.rd = s.wr.take s.rd ++ bs ∧
      (bs = [] → s.wr.take s.rd = s.wr ∧ s.shut = true) := by
  simp only [Stream.recv] at h
  split at h
  · cases h
  · next hb =>
    cases h
    have hl := chunk_length k count s.inFlight
    have hf : s.inFlight.length = s.wr.length - s.rd := List.length_drop
    refine ⟨rfl, rfl, ?_, by omega, ?_, ?_⟩
    · simp only
      omega
    · simp only [List.take_add]
      congr 1
      exact (chunk_eq_take k count s.inFlight).symm
    · intro hn
      have hnil := (chunk_eq_nil hc).1 hn
      constructor
      · exact List.take_of_length_le (List.drop_eq_nil_iff.1 hnil)
      · cases hs : s.shut with
        | true => rfl
        | false => exact (hb ⟨hn, hs⟩).elim

end SysPrg
