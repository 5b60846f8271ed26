import SysPrg.CopyRdwr

namespace SysPrg.Fileio
set_option autoImplicit true

variable {α : Type}

/-- The first `k` bytes of the source stand over the start of the destination. -/
structure Overlaid (fs₀ : Fs α) (src dst : α) (k : Nat) (fs : Fs α) : Prop where
  le : k ≤ (fs₀.old src).length
  old : fs.old dst = (fs₀.old src).take k ++ (fs₀.old dst).drop k

/-- What holds in the loop of `rdwr_fileio` whatever its calls return. A failed `read` leaves a
`write` behind it whose size the kernel refuses. -/
def FaultyAt (fs₀ : Fs α) (src dst : α) (fs : Fs α) (fdFrom fdTo : Fd) (op : RdwrOp) : Prop :=
  Copying fs₀ src dst fdFrom fdTo fs ∧
    match op with
    | .malloc => fdFrom.off = fdTo.off
    | .read => fdFrom.off = fdTo.off
    | .write buf _ w =>
      Buffered fs₀ fdFrom fdTo buf w ∨ ssizeMax < w.bytestowrite ∧ fdTo.off ≤ fdFrom.off
    | .closeFrom => fdTo.off = (fs₀.data fdFrom.ino).length
    | .closeTo => fdTo.off = (fs₀.data fdFrom.ino).length

/-- The invariant of every run of `rdwr_fileio`, with the number of bytes copied. -/
def Partly (fs₀ : Fs α) (src dst : α) (s : Copy α RdwrOp) (k : Nat) : Prop :=
  match s.pc with
  | .openFrom => k = 0 ∧ s.fs = fs₀
  | .openTo fdFrom => k = 0 ∧ s.fs = fs₀ ∧ fs₀.dir src = some fdFrom.ino ∧ fdFrom.off = 0
  | .stat fdFrom fdTo => k = 0 ∧ Opened fs₀ src dst fdFrom fdTo s.fs ∧ fdFrom.off = 0 ∧
      fdTo.off = 0 ∧ s.fs.data fdFrom.ino = fs₀.data fdFrom.ino ∧
      s.fs.data fdTo.ino = fs₀.old dst
  | .body fdFrom fdTo op => k = fdTo.off ∧ FaultyAt fs₀ src dst s.fs fdFrom fdTo op
  | .exited _ status =>
      Overlaid fs₀ src dst k s.fs ∧ (status = 0 → k = (fs₀.old src).length)

theorem overlaid_zero (h : fs.old dst = fs₀.old dst) : Overlaid fs₀ src dst 0 fs where
  le := Nat.zero_le _
  old := by rw [h, List.take_zero, List.drop_zero, List.nil_append]

theorem Opened.old_dst (h : Opened fs₀ src dst fdFrom fdTo fs) :
    fs.old dst = fs.data fdTo.ino := by
  rw [Fs.old, h.content_dst, Option.getD_some]

theorem FaultyAt.off_le (h : FaultyAt fs₀ src dst fs fdFrom fdTo op) :
    fdTo.off ≤ (fs₀.data fdFrom.ino).length := by
  obtain ⟨hc, h⟩ := h
  have hin := hc.inside
  cases op with
  | malloc => exact h ▸ hin
  | read => exact h ▸ hin
  | write buf nr w =>
    rcases h with h | h
    · have hoffs := h.offs
      omega
    · exact h.2.trans hin
  | closeFrom => exact h.le
  | closeTo => exact h.le

theorem FaultyAt.overlaid (h : FaultyAt fs₀ src dst fs fdFrom fdTo op) :
    Overlaid fs₀ src dst fdTo.off fs where
  le := by
    rw [h.1.old_src]
    exact h.off_le
  old := by rw [h.1.old_dst, h.1.dst_data, h.1.old_src]

theorem Partly.overlaid (h : Partly fs₀ src dst s k) : Overlaid fs₀ src dst k s.fs := by
  obtain ⟨pc, fs⟩ := s
  cases pc with
  | openFrom =>
    obtain ⟨rfl, rfl⟩ := h
    exact overlaid_zero rfl
  | openTo fdFrom =>
    obtain ⟨rfl, rfl, -⟩ := h
    exact overlaid_zero rfl
  | stat fdFrom fdTo =>
    obtain ⟨rfl, hop, -, -, -, hdst⟩ := h
    exact overlaid_zero (hop.old_dst.trans hdst)
  | body fdFrom fdTo op =>
    obtain ⟨rfl, hat⟩ := h
    exact hat.overlaid
  | exited err status => exact h.1

section
variable {fs₀ fs : Fs α} {src dst : α} {fdFrom fdTo : Fd}

theorem Partly.fail (h : Overlaid fs₀ src dst k fs) (err : Option String) :
    Partly fs₀ src dst ⟨.exited err 1, fs⟩ k :=
  ⟨h, fun h0 => absurd h0 (by decide)⟩

theorem RdwrAt.faulty (h : RdwrAt fs₀ src dst fs fdFrom fdTo op) :
    FaultyAt fs₀ src dst fs fdFrom fdTo op := by
  cases op with
  | write buf nr w => exact ⟨h.1, .inl h.2⟩
  | _ => exact h

theorem read_goes_on (fs : Fs α) (fdFrom fdTo : Fd) (k : Nat) :
    ∃ fdFrom' op, rdwrBody fs fdFrom fdTo .read (.done k) = ⟨.body fdFrom' fdTo op, fs⟩ := by
  simp only [rdwrBody, OpenFile.read, rRead, restart, gotBuf]
  split
  · exact ⟨_, _, rfl⟩
  · next hne =>
    simp only [rWrite, RWrite.enter, if_pos (Nat.pos_of_ne_zero hne), wroteBuf]
    exact ⟨_, _, rfl⟩

theorem write_goes_on (fs : Fs α) (h : Buffered fs₀ fdFrom fdTo buf w) (nr : Int) (k : Nat) :
    ∃ n op fs', rdwrBody fs fdFrom fdTo (.write buf nr w) (.done k) =
      ⟨.body fdFrom (fdTo.advance n) op, fs'⟩ := by
  simp only [rdwrBody, if_neg h.not_refused]
  rcases h.pending.resume_chunk k with ⟨hret, -⟩ | ⟨w', hagain, -⟩
  · rw [hret, wroteBuf, if_neg (by omega)]
    exact ⟨_, _, _, rfl⟩
  · rw [hagain, wroteBuf]
    exact ⟨_, _, _, rfl⟩

theorem faulty_read (h : Copying fs₀ src dst fdFrom fdTo fs) (hoff : fdFrom.off = fdTo.off)
    (a : Answer) : Partly fs₀ src dst (rdwrBody fs fdFrom fdTo .read a) fdTo.off := by
  cases a with
  | fail e =>
    cases e with
    | eintr => exact ⟨rfl, h, hoff⟩
    | _ => exact ⟨rfl, h, .inr ⟨by decide, hoff.ge⟩⟩
  | done k =>
    obtain ⟨hat, -⟩ := rdwr_read h hoff k
    obtain ⟨fdFrom', op, hpc⟩ := read_goes_on fs fdFrom fdTo k
    rw [hpc] at hat ⊢
    exact ⟨rfl, RdwrAt.faulty hat⟩

theorem faulty_write (h : Copying fs₀ src dst fdFrom fdTo fs)
    (hb : Buffered fs₀ fdFrom fdTo buf w) (nr : Int) (a : Answer) :
    ∃ k, fdTo.off ≤ k ∧
      Partly fs₀ src dst (rdwrBody fs fdFrom fdTo (.write buf nr w) a) k := by
  cases a with
  | fail e =>
    refine ⟨fdTo.off, Nat.le_refl _, ?_⟩
    simp only [rdwrBody, if_neg hb.not_refused]
    by_cases he : e = .eintr
    · subst he
      rw [hb.pending.resume_eintr, wroteBuf]
      exact ⟨rfl, h, .inl hb⟩
    · rw [w.resume_error he, wroteBuf, if_pos rfl]
      have hat : FaultyAt fs₀ src dst fs fdFrom fdTo (.write buf nr w) := ⟨h, .inl hb⟩
      exact .fail hat.overlaid _
  | done k =>
    obtain ⟨hat, -⟩ := rdwr_write h hb nr k
    obtain ⟨n, op, fs', hpc⟩ := write_goes_on fs hb nr k
    rw [hpc] at hat ⊢
    exact ⟨(fdTo.advance n).off, Nat.le_add_right _ _, rfl, RdwrAt.faulty hat⟩

theorem faulty_body (h : FaultyAt fs₀ src dst fs fdFrom fdTo op) (a : Answer) :
    ∃ k, fdTo.off ≤ k ∧ Partly fs₀ src dst (rdwrBody fs fdFrom fdTo op a) k := by
  have hover := h.overlaid
  obtain ⟨hc, hop⟩ := h
  cases op with
  | malloc =>
    cases a with
    | fail e => exact ⟨_, Nat.le_refl _, .fail hover _⟩
    | done k => exact ⟨_, Nat.le_refl _, rfl, hc, hop⟩
  | read => exact ⟨_, Nat.le_refl _, faulty_read hc hop a⟩
  | write buf nr w =>
    rcases hop with hb | ⟨hbig, -⟩
    · exact faulty_write hc hb nr a
    · -- the size that was -1: nothing is written, and the program ends
      refine ⟨_, Nat.le_refl _, ?_⟩
      simp only [rdwrBody, if_pos hbig, w.resume_error (show Errno.einval ≠ .eintr by decide),
        wroteBuf, if_pos]
      exact .fail hover _
  | closeFrom => exact ⟨_, Nat.le_refl _, rfl, hc, hop⟩
  | closeTo =>
    refine ⟨_, Nat.le_refl _, hover, fun _ => ?_⟩
    rw [hc.old_src]
    exact hop

variable [DecidableEq α]

theorem Partly.step (s : Copy α RdwrOp) (k : Nat) (a : Answer) (h : Partly fs₀ src dst s k) :
    ∃ k', k ≤ k' ∧ Partly fs₀ src dst (rdwrStep src dst s a) k' := by
  obtain ⟨pc, fs⟩ := s
  cases pc with
  | openFrom =>
    obtain ⟨rfl, rfl⟩ := h
    refine ⟨0, Nat.le_refl 0, ?_⟩
    cases a with
    | fail e =>
      cases e with
      | eintr => exact ⟨rfl, rfl⟩
      | _ => exact .fail (overlaid_zero rfl) _
    | done n =>
      simp only [rdwrStep, Copy.step, lookup]
      cases hd : fs.dir src with
      | none => exact .fail (overlaid_zero rfl) _
      | some i => exact ⟨rfl, rfl, hd, rfl⟩
  | openTo fdFrom =>
    obtain ⟨rfl, rfl, hsrc, h0⟩ := h
    refine ⟨0, Nat.le_refl 0, ?_⟩
    cases a with
    | fail e =>
      cases e with
      | eintr => exact ⟨rfl, rfl, hsrc, h0⟩
      | _ => exact .fail (overlaid_zero rfl) _
    | done n =>
      exact ⟨rfl, .start hsrc dst 0, h0, rfl, (Fs.openCreat_of_dir hsrc dst).2,
        Fs.openCreat_data_self fs dst⟩
  | stat fdFrom fdTo =>
    obtain ⟨rfl, hop, h0, h0', hsrc, hdst⟩ := h
    refine ⟨0, Nat.le_refl 0, ?_⟩
    have hzero : Overlaid fs₀ src dst 0 fs := overlaid_zero (hop.old_dst.trans hdst)
    cases a with
    | fail e => exact .fail hzero _
    | done n =>
      have hdir : fs.dir src = some fdFrom.ino := hop.src_dir
      have hdata : fs.data fdFrom.ino = fs₀.data fdFrom.ino := hsrc
      simp only [rdwrStep, Copy.step, stSize, lookup, hdir, Except.map, gotLen, hdata]
      split
      · exact .fail hzero _
      · next hne =>
        have hat := rdwr_enter hop h0 h0' hsrc hdst fun he => hne (congrArg List.length he)
        exact ⟨h0'.symm, hat.faulty⟩
  | body fdFrom fdTo op =>
    obtain ⟨rfl, hat⟩ := h
    exact faulty_body hat a
  | exited err status => exact ⟨k, Nat.le_refl k, h⟩

/-- Whatever the calls of `rdwr_fileio` return, the destination is at every point of the run a
leading part of the source over its old content, one that never gets shorter, and the program
exits with status 0 only when that part is the whole source. -/
theorem copy_prefix_under_faults (fs₀ : Fs α) (src dst : α) (as : List Answer) :
    ∃ κ : Nat → Nat, Monotone κ ∧ ∀ i,
      κ i ≤ (fs₀.old src).length ∧
      (rdwrFileio src dst fs₀ (as.take i)).fs.old dst =
        (fs₀.old src).take (κ i) ++ (fs₀.old dst).drop (κ i) ∧
      ∀ err, (rdwrFileio src dst fs₀ (as.take i)).pc = .exited err 0 →
        κ i = (fs₀.old src).length := by
  have hstart : Partly fs₀ src dst ⟨.openFrom, fs₀⟩ 0 := ⟨rfl, rfl⟩
  have hstep : ∀ s k a, Partly fs₀ src dst s k →
      ∃ k', k ≤ k' ∧ Partly fs₀ src dst (rdwrStep src dst s a) k' := Partly.step
  obtain ⟨κ, hmono, -, hκ⟩ := run_grows (Partly fs₀ src dst) hstep hstart as
  refine ⟨κ, hmono, fun i => ?_⟩
  have hi : Partly fs₀ src dst (rdwrFileio src dst fs₀ (as.take i)) (κ i) := hκ i
  refine ⟨hi.overlaid.le, hi.overlaid.old, ?_⟩
  intro err hpc
  unfold Partly at hi
  rw [hpc] at hi
  exact hi.2 rfl

end

end SysPrg.Fileio
