import SysPrg.CopyMmap

namespace SysPrg.Fileio
set_option autoImplicit true

section
variable {α : Type} {fs₀ : Fs α} {src dst : α}

theorem Ends.agree (h : Ends fs₀ src dst copied fs status)
    (h' : Ends fs₀ src dst copied fs' status') :
    status = status' ∧ fs.content dst = fs'.content dst := by
  unfold Ends at h h'
  split at h
  · next hs =>
    rw [hs] at h'
    obtain ⟨rfl, rfl⟩ := h
    obtain ⟨rfl, rfl⟩ := h'
    exact ⟨rfl, rfl⟩
  · next hs =>
    rw [hs] at h'
    exact ⟨h.1.trans h'.1.symm, h.2.trans h'.2.symm⟩
  · next hs =>
    rw [hs] at h'
    exact ⟨h.1.trans h'.1.symm, h.2.trans h'.2.symm⟩

theorem Ends.of_distinct (hd : ∀ i, fs₀.dir src = some i → fs₀.dir dst ≠ some i)
    (h : Ends fs₀ src dst (mmapCopied fs₀ src dst) fs status) :
    Ends fs₀ src dst (overlay (fs₀.old src) (fs₀.old dst)) fs status := by
  cases hs : fs₀.dir src with
  | none =>
    unfold Ends Fs.content at h ⊢
    rw [hs] at h ⊢
    exact h
  | some i =>
    have hne : fs₀.dir dst ≠ fs₀.dir src := hs ▸ hd i hs
    rwa [mmapCopied, if_neg hne] at h

theorem Ends.of_nonempty (hsrc : fs₀.content src = some file) (hne : file ≠ [])
    (h : Ends fs₀ src dst copied fs status) : status = 0 ∧ fs.content dst = some copied := by
  cases file with
  | nil => exact (hne rfl).elim
  | cons b bs =>
    unfold Ends at h
    rwa [hsrc] at h

theorem overlay_eq_iff (file old : Bytes) : overlay file old = file ↔ old.length ≤ file.length := by
  rw [overlay, List.append_right_eq_self, List.drop_eq_nil_iff]

theorem dropLast_append_eq_iff (file : Bytes) (b : UInt8) :
    file.dropLast ++ [b] = file ↔ file.getLast? = some b := by
  constructor
  · intro h
    rw [← h, List.getLast?_concat]
  · intro h
    exact List.dropLast_append_getLast? b h

theorem old_eq (hsrc : fs₀.content src = some file) : fs₀.old src = file := by
  rw [Fs.old, hsrc, Option.getD_some]

theorem mmapCopied_eq_iff (hsrc : fs₀.content src = some file) (dst : α) :
    mmapCopied fs₀ src dst = file ↔ (fs₀.old dst).length ≤ file.length ∧
      (fs₀.dir dst = fs₀.dir src → file.getLast? = some 0) := by
  rw [mmapCopied, old_eq hsrc]
  by_cases hs : fs₀.dir dst = fs₀.dir src
  · have hold : fs₀.old dst = file := by
      rw [Fs.old, Fs.content, hs]
      exact old_eq hsrc
    rw [if_pos hs, dropLast_append_eq_iff, hold]
    exact ⟨fun h => ⟨Nat.le_refl _, fun _ => h⟩, fun h => h.2 hs⟩
  · rw [if_neg hs, overlay_eq_iff]
    exact ⟨fun h => ⟨h, fun he => (hs he).elim⟩, fun h => h.1⟩

end

variable {α : Type} [DecidableEq α]

/-- In runs without a failing call, on two files, both programs end, with the same status and the
same bytes in the destination. -/
theorem rdwr_mmap_agree (fs₀ : Fs α) (src dst : α) (as bs : List Answer)
    (hd : ∀ i, fs₀.dir src = some i → fs₀.dir dst ≠ some i)
    (hr : saw rdwrFails (rdwrStep src dst) ⟨.openFrom, fs₀⟩ as = false)
    (hm : saw mmapFails (mmapStep src dst) ⟨.openFrom, fs₀⟩ bs = false) :
    (2 * (fs₀.old src).length + 7 < as.countP completes →
      (rdwrFileio src dst fs₀ as).pc.ended = true) ∧
    (7 < bs.countP completes → (mmapFileio src dst fs₀ bs).pc.ended = true) ∧
    ∀ err status err' status', (rdwrFileio src dst fs₀ as).pc = .exited err status →
      (mmapFileio src dst fs₀ bs).pc = .exited err' status' → status = status' ∧
        (rdwrFileio src dst fs₀ as).fs.content dst =
          (mmapFileio src dst fs₀ bs).fs.content dst := by
  obtain ⟨hinv, hend⟩ := rdwr_run hr
  obtain ⟨hinv', hend'⟩ := mmap_run hm
  refine ⟨hend, hend', ?_⟩
  intro err status err' status' hpc hpc'
  simp only [RdwrInv, At, hpc] at hinv
  simp only [MmapInv, At, hpc'] at hinv'
  exact hinv.agree (hinv'.of_distinct hd)

def twoFiles (file file' : Bytes) : Fs Nat where
  dir p := if p < 2 then some p else none
  data i := if i = 0 then file else file'
  next := 2
  used := by
    intro p i h
    split at h
    · next hp =>
      cases h
      exact hp
    · cases h

theorem rdwr_mmap_agree_two_bytes :
    (rdwrFileio 0 1 (twoFiles [1, 2] [7])
        (.fail .eintr :: List.replicate 12 (.done 0))).fs.content 1 =
      (mmapFileio 0 1 (twoFiles [1, 2] [7]) (List.replicate 8 (.done 0))).fs.content 1 := by
  obtain ⟨-, -, h⟩ := rdwr_mmap_agree (twoFiles [1, 2] [7]) 0 1
    (.fail .eintr :: List.replicate 12 (.done 0)) (List.replicate 8 (.done 0))
    (by simp [twoFiles]) (by decide +kernel) (by decide +kernel)
  exact (h none 0 none 0 (by decide +kernel) (by decide +kernel)).2

/-- What is exactly the source after a run without a failing call: the destination of `rdwr_fileio`
if it was not longer, and that of `mmap_fileio` if moreover it was another file or the source ends
in a zero. -/
theorem copy_exact_iff (fs₀ : Fs α) (src dst : α) (file : Bytes) (as bs : List Answer)
    (hsrc : fs₀.content src = some file) (hne : file ≠ [])
    (hr : saw rdwrFails (rdwrStep src dst) ⟨.openFrom, fs₀⟩ as = false)
    (hm : saw mmapFails (mmapStep src dst) ⟨.openFrom, fs₀⟩ bs = false) :
    ((2 * file.length + 7 < as.countP completes → (rdwrFileio src dst fs₀ as).pc.ended = true) ∧
      ∀ err status, (rdwrFileio src dst fs₀ as).pc = .exited err status → status = 0 ∧
        ((rdwrFileio src dst fs₀ as).fs.content dst = some file ↔
          (fs₀.old dst).length ≤ file.length)) ∧
    ((7 < bs.countP completes → (mmapFileio src dst fs₀ bs).pc.ended = true) ∧
      ∀ err status, (mmapFileio src dst fs₀ bs).pc = .exited err status → status = 0 ∧
        ((mmapFileio src dst fs₀ bs).fs.content dst = some file ↔
          (fs₀.old dst).length ≤ file.length ∧
            (fs₀.dir dst = fs₀.dir src → file.getLast? = some 0))) := by
  obtain ⟨hinv, hend⟩ := rdwr_run hr
  obtain ⟨hinv', hend'⟩ := mmap_run hm
  rw [old_eq hsrc] at hend
  refine ⟨⟨hend, ?_⟩, hend', ?_⟩
  · intro err status hpc
    simp only [RdwrInv, At, hpc] at hinv
    obtain ⟨h0, hdst⟩ := hinv.of_nonempty hsrc hne
    rw [hdst, Option.some.injEq, old_eq hsrc, overlay_eq_iff]
    exact ⟨h0, Iff.rfl⟩
  · intro err status hpc
    simp only [MmapInv, At, hpc] at hinv'
    obtain ⟨h0, hdst⟩ := hinv'.of_nonempty hsrc hne
    rw [hdst, Option.some.injEq, mmapCopied_eq_iff hsrc]
    exact ⟨h0, Iff.rfl⟩

theorem copy_exact_two_bytes :
    (rdwrFileio 0 1 (twoFiles [1, 2] [7]) (List.replicate 12 (.done 0))).fs.content 1 =
        some [1, 2] ∧
      (mmapFileio 0 1 (twoFiles [1, 2] [7]) (List.replicate 8 (.done 0))).fs.content 1 =
        some [1, 2] := by
  obtain ⟨⟨-, h⟩, -, h'⟩ := copy_exact_iff (twoFiles [1, 2] [7]) 0 1 [1, 2]
    (List.replicate 12 (.done 0)) (List.replicate 8 (.done 0)) rfl (by decide)
    (by decide +kernel) (by decide +kernel)
  exact ⟨(h none 0 (by decide +kernel)).2.2 (by decide),
    (h' none 0 (by decide +kernel)).2.2 (by decide +kernel)⟩

/-- A longer destination keeps its tail in both programs, and `mmap_fileio` of a file to itself
loses the last byte, with all calls successful. -/
theorem copy_not_exact :
    ¬ (∀ (fs₀ : Fs Nat) (src dst : Nat) (file : Bytes) (as : List Answer),
      fs₀.content src = some file → file ≠ [] →
      saw rdwrFails (rdwrStep src dst) ⟨.openFrom, fs₀⟩ as = false →
      (rdwrFileio src dst fs₀ as).pc = .exited none 0 →
      (rdwrFileio src dst fs₀ as).fs.content dst = some file) ∧
    (mmapFileio 0 1 (twoFiles [1] [7, 7]) (List.replicate 8 (.done 0))).fs.content 1 =
      some [1, 7] ∧
    (mmapFileio 0 0 (twoFiles [1, 2] []) (List.replicate 8 (.done 0))).fs.content 0 =
      some [1, 0] := by
  refine ⟨?_, by decide +kernel, by decide +kernel⟩
  intro h
  have hc := h (twoFiles [1] [7, 7]) 0 1 [1] (List.replicate 9 (.done 0)) rfl (by decide)
    (by decide +kernel) (by decide +kernel)
  revert hc
  decide +kernel

end SysPrg.Fileio
