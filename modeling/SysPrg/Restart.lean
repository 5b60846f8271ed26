import SysPrg.Kernel

namespace SysPrg
set_option autoImplicit true

/-- The loop `while (retval = f(...), retval == -1 && errno == EINTR);` around one return of the
call it wraps: `none` when the call is made again, otherwise the wrapper's own result. -/
def restart : Except Errno α → Option (Except Errno α)
  | .error .eintr => none
  | r => some r

theorem restart_eq_some {r r' : Except Errno α} (h : restart r = some r') : r' = r := by
  unfold restart at h
  split at h
  · cases h
  · cases h
    rfl

def rClose (r : Except Errno Unit) : Option (Except Errno Unit) := restart r

def rOpen2 (r : Except Errno α) : Option (Except Errno α) := restart r

def rOpen3 (r : Except Errno α) : Option (Except Errno α) := restart r

def rRead (r : Except Errno Bytes) : Option (Except Errno Bytes) := restart r

/-- The variables of the loop in `r_write`; `bufp` is the offset from `buf`. -/
structure RWrite where
  bufp : Nat
  bytestowrite : Nat
  totalbytes : Nat
  deriving DecidableEq, Repr

inductive WriteLoop where
  | again (w : RWrite)
  | ret (v : Int)
  deriving DecidableEq, Repr

def RWrite.enter (w : RWrite) : WriteLoop :=
  if 0 < w.bytestowrite then .again w else .ret w.totalbytes

def rWrite (size : Nat) : WriteLoop := RWrite.enter ⟨0, size, 0⟩

/-- One iteration of `r_write`, from the return of its `write`. -/
def RWrite.resume (w : RWrite) : Except Errno Nat → WriteLoop
  | .error .eintr => w.enter
  | .error _ => .ret (-1)
  | .ok byteswritten => RWrite.enter
      ⟨w.bufp + byteswritten, w.bytestowrite - byteswritten, w.totalbytes + byteswritten⟩

def RWrite.left (w : RWrite) (buf : Bytes) : Bytes := (buf.drop w.bufp).take w.bytestowrite

/-- The variables of a pending `r_write` that was asked to write all of `buf`. -/
structure RWrite.Inside (w : RWrite) (buf : Bytes) : Prop where
  pending : 0 < w.bytestowrite
  whole : w.bufp + w.bytestowrite = buf.length
  counted : w.totalbytes = w.bufp

theorem RWrite.Inside.left_length (h : RWrite.Inside w buf) :
    (w.left buf).length = w.bytestowrite := by
  have := h.whole
  simp only [RWrite.left, List.length_take, List.length_drop]
  omega

theorem RWrite.Inside.left_ne_nil (h : RWrite.Inside w buf) : w.left buf ≠ [] := by
  apply List.ne_nil_of_length_pos
  rw [h.left_length]
  exact h.pending

theorem RWrite.Inside.left_suffix (h : RWrite.Inside w buf) : w.left buf <:+ buf := by
  have := h.whole
  rw [RWrite.left, List.take_of_length_le (by rw [List.length_drop]; omega)]
  exact List.drop_suffix _ _

theorem rWrite_spec (hb : buf ≠ []) :
    ∃ w, rWrite buf.length = .again w ∧ RWrite.Inside w buf ∧ w.left buf = buf := by
  have hpos := List.length_pos_iff.2 hb
  refine ⟨⟨0, buf.length, 0⟩, ?_, ⟨hpos, Nat.zero_add _, rfl⟩, ?_⟩
  · simp only [rWrite, RWrite.enter, if_pos hpos]
  · simp only [RWrite.left, List.drop_zero, List.take_length]

theorem RWrite.Inside.length_pos (h : RWrite.Inside w buf) : 0 < buf.length := by
  have := h.whole
  have := h.pending
  omega

/-- After a `write` that accepted a chunk of the pending bytes, the loop either goes on with the
bytes after it or returns the length of the whole buffer. -/
theorem RWrite.Inside.resume_chunk (h : RWrite.Inside w buf) (k : Nat) :
    (w.resume (.ok (chunk k w.bytestowrite (w.left buf)).length) = .ret buf.length ∧
        chunk k w.bytestowrite (w.left buf) = w.left buf) ∨
      ∃ w', w.resume (.ok (chunk k w.bytestowrite (w.left buf)).length) = .again w' ∧
        RWrite.Inside w' buf ∧
        chunk k w.bytestowrite (w.left buf) ++ w'.left buf = w.left buf := by
  have hsplit := chunk_append_drop k w.bytestowrite (w.left buf)
  have hle : (chunk k w.bytestowrite (w.left buf)).length ≤ w.bytestowrite := by
    rw [chunk_length]
    omega
  have hw := h.whole
  have hc := h.counted
  generalize hn : (chunk k w.bytestowrite (w.left buf)).length = n at hsplit hle
  simp only [RWrite.resume, RWrite.enter]
  by_cases hl : 0 < w.bytestowrite - n
  · right
    refine ⟨_, if_pos hl, ⟨hl, ?_, ?_⟩, ?_⟩
    · simp only
      omega
    · simp only
      omega
    · simpa only [RWrite.left, List.drop_take, List.drop_drop] using hsplit
  · left
    rw [if_neg hl]
    constructor
    · congr 1
      omega
    · have hnil : (w.left buf).drop n = [] := by
        apply List.drop_eq_nil_of_le
        rw [h.left_length]
        omega
      rwa [hnil, List.append_nil] at hsplit

theorem RWrite.Inside.resume_eintr (h : RWrite.Inside w buf) :
    w.resume (.error .eintr) = .again w := by
  simp only [RWrite.resume, RWrite.enter, if_pos h.pending]

theorem RWrite.resume_error (w : RWrite) (he : e ≠ .eintr) : w.resume (.error e) = .ret (-1) := by
  cases e with
  | eintr => exact (he rfl).elim
  | _ => rfl

end SysPrg
