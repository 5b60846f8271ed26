import SysPrg.CopyRdwr

namespace SysPrg.Fileio
set_option autoImplicit true

variable {α : Type}

/-- The destination has been made as long as the source, at the cost of the byte at its new end. -/
structure Extended (fs₀ : Fs α) (dst : α) (fdFrom fdTo : Fd) (fs : Fs α) : Prop where
  dst_data : fs.data fdTo.ino =
    writeAt (fs₀.old dst) ((fs₀.data fdFrom.ino).length - 1) [0]
  src_data : fdTo.ino ≠ fdFrom.ino → fs.data fdFrom.ino = fs₀.data fdFrom.ino

def MmapAt (fs₀ : Fs α) (src dst : α) (fs : Fs α) (fdFrom fdTo : Fd) (op : MmapOp) : Prop :=
  Opened fs₀ src dst fdFrom fdTo fs ∧ fs₀.data fdFrom.ino ≠ [] ∧
    match op with
    | .lseek len => len = (fs₀.data fdFrom.ino).length ∧
        fs.data fdFrom.ino = fs₀.data fdFrom.ino ∧ fs.data fdTo.ino = fs₀.old dst
    | .write len => len = (fs₀.data fdFrom.ino).length ∧ fdTo.off = len - 1 ∧
        fs.data fdFrom.ino = fs₀.data fdFrom.ino ∧ fs.data fdTo.ino = fs₀.old dst
    | .mmapSrc len => len = (fs₀.data fdFrom.ino).length ∧ Extended fs₀ dst fdFrom fdTo fs
    | .mmapDest len => len = (fs₀.data fdFrom.ino).length ∧ Extended fs₀ dst fdFrom fdTo fs

def mmapTodo (_ : Fd) : MmapOp → Nat
  | .lseek _ => 4
  | .write _ => 3
  | .mmapSrc _ => 2
  | .mmapDest _ => 1

/-- What `mmap_fileio` leaves in the destination: when the two names lead to one file, it does not
get its last byte back. -/
def mmapCopied (fs₀ : Fs α) (src dst : α) : Bytes :=
  if fs₀.dir dst = fs₀.dir src then (fs₀.old src).dropLast ++ [0]
  else overlay (fs₀.old src) (fs₀.old dst)

section
variable {fs₀ fs : Fs α} {src dst : α} {fdFrom fdTo : Fd}

def MmapInv (fs₀ : Fs α) (src dst : α) (s : Copy α MmapOp) : Prop :=
  At (MmapAt fs₀ src dst) fs₀ src dst (mmapCopied fs₀ src dst) s

theorem Extended.start (hsrc : fs.data fdFrom.ino = fs₀.data fdFrom.ino)
    (hdst : fs.data fdTo.ino = fs₀.old dst)
    (hoff : fdTo.off = (fs₀.data fdFrom.ino).length - 1) :
    Extended fs₀ dst fdFrom fdTo (fs.write fdTo.ino fdTo.off [0]) where
  dst_data := by rw [Fs.write_data_self, hdst, hoff]
  src_data := by
    intro hne
    rw [Fs.write_data_of_ne fs _ _ (Ne.symm hne), hsrc]

theorem Extended.memcpy (he : Extended fs₀ dst fdFrom fdTo fs)
    (h : Opened fs₀ src dst fdFrom fdTo fs) (hne : fs₀.data fdFrom.ino ≠ []) :
    (fs.write fdTo.ino 0 ((fs.data fdFrom.ino).take (fs₀.data fdFrom.ino).length)).data fdTo.ino =
      mmapCopied fs₀ src dst := by
  rw [Fs.write_data_self, writeAt_start, mmapCopied, h.src_dir₀, h.old_src]
  by_cases hs : fdTo.ino = fdFrom.ino
  · have hlast : fs.data fdFrom.ino = (fs₀.data fdFrom.ino).dropLast ++ [0] := by
      have hd := he.dst_data
      rwa [hs, h.old_dst_of_same hs, writeAt_last hne] at hd
    have hlen : ((fs₀.data fdFrom.ino).dropLast ++ [(0 : UInt8)]).length =
        (fs₀.data fdFrom.ino).length := by
      have := List.length_pos_iff.2 hne
      rw [List.length_append, List.length_dropLast, List.length_singleton]
      omega
    rw [if_pos (h.same.1 hs), hs, hlast, List.take_of_length_le (Nat.le_of_eq hlen),
      List.drop_length, List.append_nil]
  · have hend : (fs₀.data fdFrom.ino).length =
        (fs₀.data fdFrom.ino).length - 1 + [(0 : UInt8)].length := by
      have := List.length_pos_iff.2 hne
      rw [List.length_singleton]
      omega
    have hdrop := drop_writeAt (fs₀.old dst) ((fs₀.data fdFrom.ino).length - 1) [0]
    rw [← hend] at hdrop
    rw [if_neg (mt h.same.2 hs), he.src_data hs, List.take_length, he.dst_data, hdrop, overlay]

theorem mmap_body (op : MmapOp) (a : Answer)
    (ha : (Pc.body fdFrom fdTo op).fails (fun _ => false) a = false)
    (h : MmapAt fs₀ src dst fs fdFrom fdTo op) :
    MmapInv fs₀ src dst (mmapBody fs fdFrom fdTo op a) ∧
      (mmapBody fs fdFrom fdTo op a).pc.todo 4 mmapTodo + (completes a).toNat ≤
        mmapTodo fdFrom op := by
  obtain ⟨hop, hne, h⟩ := h
  cases a with
  | fail e => simp [Pc.fails, Pc.restarts] at ha
  | done k =>
    cases op with
    | lseek len =>
      obtain ⟨hlen, hsrc, hdst⟩ := h
      exact ⟨⟨hop.seek _ _, hne, hlen, rfl, hsrc, hdst⟩, Nat.le_refl _⟩
    | write len =>
      obtain ⟨rfl, hoff, hsrc, hdst⟩ := h
      have hext := Extended.start hsrc hdst hoff
      exact ⟨⟨(hop.write _ _).seek _ _, hne, rfl, hext.1, hext.2⟩, Nat.le_refl _⟩
    | mmapSrc len => exact ⟨⟨hop, hne, h⟩, Nat.le_refl _⟩
    | mmapDest len =>
      obtain ⟨rfl, hext⟩ := h
      exact ⟨(hop.write _ _).ends hne (hext.memcpy hop hne), Nat.le_refl _⟩

variable [DecidableEq α]

theorem mmap_step (s : Copy α MmapOp) (a : Answer) (ha : mmapFails s a = false)
    (h : MmapInv fs₀ src dst s) :
    MmapInv fs₀ src dst (mmapStep src dst s a) ∧
      (s.pc.ended = false → (mmapStep src dst s a).pc.todo 4 mmapTodo + (completes a).toNat ≤
        s.pc.todo 4 mmapTodo) := by
  apply At.step _ _ s a ha h
  · intro fs fdFrom fdTo hop _ _ hsrc hdst hne
    exact ⟨⟨hop, hne, rfl, hsrc, hdst⟩, Nat.le_refl _⟩
  · intro fs fdFrom fdTo op a ha h
    exact mmap_body op a ha h

theorem mmap_run (hgood : saw mmapFails (mmapStep src dst) ⟨.openFrom, fs₀⟩ as = false) :
    MmapInv fs₀ src dst (mmapFileio src dst fs₀ as) ∧
      (7 < as.countP completes → (mmapFileio src dst fs₀ as).pc.ended = true) :=
  At.run mmap_step hgood

end

end SysPrg.Fileio
