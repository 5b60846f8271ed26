import SysPrg.CopyRun

namespace SysPrg.Fileio
set_option autoImplicit true

variable {α : Type}

/-- The loop of `rdwr_fileio` has put the first `fdTo.off` bytes of the source over the start of
the destination. This is so also when the two are one file. -/
structure Copying (fs₀ : Fs α) (src dst : α) (fdFrom fdTo : Fd) (fs : Fs α) : Prop extends
    Opened fs₀ src dst fdFrom fdTo fs where
  nonempty : fs₀.data fdFrom.ino ≠ []
  src_data : fs.data fdFrom.ino = fs₀.data fdFrom.ino
  dst_data : fs.data fdTo.ino =
    (fs₀.data fdFrom.ino).take fdTo.off ++ (fs₀.old dst).drop fdTo.off
  inside : fdFrom.off ≤ (fs₀.data fdFrom.ino).length

/-- What has been read and is not yet written is what `r_write` has still to write. -/
structure Buffered (fs₀ : Fs α) (fdFrom fdTo : Fd) (buf : Bytes) (w : RWrite) : Prop where
  pending : RWrite.Inside w buf
  fits : buf.length ≤ rdwrSize
  bytes : (fs₀.data fdFrom.ino).take fdFrom.off =
    (fs₀.data fdFrom.ino).take fdTo.off ++ w.left buf
  offs : fdFrom.off = fdTo.off + (w.left buf).length

def RdwrAt (fs₀ : Fs α) (src dst : α) (fs : Fs α) (fdFrom fdTo : Fd) (op : RdwrOp) : Prop :=
  Copying fs₀ src dst fdFrom fdTo fs ∧
    match op with
    | .malloc => fdFrom.off = fdTo.off
    | .read => fdFrom.off = fdTo.off
    | .write buf _ w => Buffered fs₀ fdFrom fdTo buf w
    | .closeFrom => fdTo.off = (fs₀.data fdFrom.ino).length
    | .closeTo => fdTo.off = (fs₀.data fdFrom.ino).length

def rdwrTodo (len : Nat) (fdFrom : Fd) : RdwrOp → Nat
  | .malloc => 2 * len + 4
  | .read => 2 * (len - fdFrom.off) + 3
  | .write _ _ w => 2 * (len - fdFrom.off) + w.bytestowrite + 3
  | .closeFrom => 2
  | .closeTo => 1

/-- What the programs leave in the destination when they copy `src` over the start of `old`. -/
def overlay (src old : Bytes) : Bytes := src ++ old.drop src.length

theorem Opened.old_dst_of_same (h : Opened fs₀ src dst fdFrom fdTo fs)
    (hs : fdTo.ino = fdFrom.ino) : fs₀.old dst = fs₀.data fdFrom.ino := by
  rw [Fs.old, Fs.content_eq (h.same.1 hs), Option.getD_some]

theorem Copying.write (h : Copying fs₀ src dst fdFrom fdTo fs) (hoff : fdTo.off ≤ fdFrom.off)
    (hbs : (fs₀.data fdFrom.ino).take (fdTo.off + bs.length) =
      (fs₀.data fdFrom.ino).take fdTo.off ++ bs) :
    Copying fs₀ src dst fdFrom (fdTo.advance bs.length) (fs.write fdTo.ino fdTo.off bs) := by
  have hlen : ((fs₀.data fdFrom.ino).take fdTo.off).length = fdTo.off := by
    rw [List.length_take]
    have := h.inside
    omega
  have hdst : (fs.write fdTo.ino fdTo.off bs).data fdTo.ino =
      (fs₀.data fdFrom.ino).take (fdTo.off + bs.length) ++
        (fs₀.old dst).drop (fdTo.off + bs.length) := by
    have hcover := writeAt_cover ((fs₀.data fdFrom.ino).take fdTo.off) (fs₀.old dst) bs
    rw [hlen] at hcover
    rw [Fs.write_data_self, h.dst_data, hcover, hbs]
  refine { (h.toOpened.write fdTo.off bs).seek fdFrom.off (fdTo.off + bs.length) with
    nonempty := h.nonempty, src_data := ?_, dst_data := hdst, inside := h.inside }
  by_cases hs : fdTo.ino = fdFrom.ino
  · -- one file: the bytes written are those that were there
    rw [← hs, hdst, h.old_dst_of_same hs, List.take_append_drop, hs]
  · rw [Fs.write_data_of_ne fs _ _ (Ne.symm hs), h.src_data]

theorem Copying.seek (h : Copying fs₀ src dst fdFrom fdTo fs)
    (hn : fdFrom.off + n ≤ (fs₀.data fdFrom.ino).length) :
    Copying fs₀ src dst (fdFrom.advance n) fdTo fs :=
  { h.toOpened.seek (fdFrom.off + n) fdTo.off with
    nonempty := h.nonempty, src_data := h.src_data, dst_data := h.dst_data, inside := hn }

theorem Copying.ends (h : Copying fs₀ src dst fdFrom fdTo fs)
    (hoff : fdTo.off = (fs₀.data fdFrom.ino).length) :
    Ends fs₀ src dst (overlay (fs₀.old src) (fs₀.old dst)) fs 0 := by
  apply h.toOpened.ends h.nonempty
  rw [h.dst_data, hoff, List.take_length, overlay, h.old_src]

theorem Buffered.start {fs₀ : Fs α} {fdFrom fdTo : Fd} (hoff : fdFrom.off = fdTo.off)
    (hb : bs ≠ []) (hfits : bs.length ≤ rdwrSize)
    (hbs : (fs₀.data fdFrom.ino).take (fdFrom.off + bs.length) =
      (fs₀.data fdFrom.ino).take fdFrom.off ++ bs) :
    ∃ w, rWrite bs.length = .again w ∧ Buffered fs₀ (fdFrom.advance bs.length) fdTo bs w ∧
      w.bytestowrite = bs.length := by
  obtain ⟨w, hw, hin, hleft⟩ := rWrite_spec hb
  refine ⟨w, hw, ⟨hin, hfits, ?_, ?_⟩, ?_⟩
  · rw [hleft, ← hoff]
    exact hbs
  · rw [hleft, ← hoff]
    rfl
  · rw [← hin.left_length, hleft]

theorem Buffered.take_add (h : Buffered fs₀ fdFrom fdTo buf w)
    (hin : fdFrom.off ≤ (fs₀.data fdFrom.ino).length) (hbs : bs ++ rest = w.left buf) :
    (fs₀.data fdFrom.ino).take (fdTo.off + bs.length) =
      (fs₀.data fdFrom.ino).take fdTo.off ++ bs := by
  have hoffs := h.offs
  have hlen := congrArg List.length hbs
  rw [List.length_append] at hlen
  have hto : ((fs₀.data fdFrom.ino).take fdTo.off).length = fdTo.off := by
    rw [List.length_take]
    omega
  calc (fs₀.data fdFrom.ino).take (fdTo.off + bs.length)
      = ((fs₀.data fdFrom.ino).take fdFrom.off).take (fdTo.off + bs.length) := by
        rw [List.take_take]
        congr 1
        omega
    _ = ((fs₀.data fdFrom.ino).take fdTo.off ++ bs ++ rest).take (fdTo.off + bs.length) := by
        rw [h.bytes, ← hbs, List.append_assoc]
    _ = (fs₀.data fdFrom.ino).take fdTo.off ++ bs := by
        apply List.take_left'
        rw [List.length_append, hto]

theorem Buffered.not_refused (h : Buffered fs₀ fdFrom fdTo buf w) :
    ¬ ssizeMax < w.bytestowrite := by
  have := h.pending.whole
  have := h.fits
  simp only [rdwrSize] at this
  simp only [ssizeMax]
  omega

section
variable {fs₀ fs : Fs α} {src dst : α} {fdFrom fdTo : Fd}

def RdwrInv (fs₀ : Fs α) (src dst : α) (s : Copy α RdwrOp) : Prop :=
  At (RdwrAt fs₀ src dst) fs₀ src dst (overlay (fs₀.old src) (fs₀.old dst)) s

def rdwrLeft (fs₀ : Fs α) (src : α) (pc : Pc RdwrOp) : Nat :=
  pc.todo (2 * (fs₀.old src).length + 4) (rdwrTodo (fs₀.old src).length)

theorem rdwr_read (h : Copying fs₀ src dst fdFrom fdTo fs) (hoff : fdFrom.off = fdTo.off)
    (k : Nat) : RdwrInv fs₀ src dst (rdwrBody fs fdFrom fdTo .read (.done k)) ∧
      rdwrLeft fs₀ src (rdwrBody fs fdFrom fdTo .read (.done k)).pc <
        2 * ((fs₀.old src).length - fdFrom.off) + 3 := by
  have hread := OpenFile.take_advance ⟨fs₀.data fdFrom.ino, fdFrom.off⟩ k rdwrSize
  have hle : (OpenFile.next ⟨fs₀.data fdFrom.ino, fdFrom.off⟩ k rdwrSize).length ≤
      min rdwrSize ((fs₀.data fdFrom.ino).length - fdFrom.off) := by
    simp only [OpenFile.next, chunk_length, List.length_drop]
    omega
  have hnil : OpenFile.next ⟨fs₀.data fdFrom.ino, fdFrom.off⟩ k rdwrSize = [] →
      (fs₀.data fdFrom.ino).length ≤ fdFrom.off := by
    rw [OpenFile.next, chunk_eq_nil (by decide)]
    exact List.drop_eq_nil_iff.1
  simp only [rdwrBody, OpenFile.read, rRead, restart, h.src_data]
  generalize OpenFile.next ⟨fs₀.data fdFrom.ino, fdFrom.off⟩ k rdwrSize = bs at hread hle hnil
  have hin := h.inside
  have hold := congrArg List.length h.old_src
  by_cases hb : bs = []
  · -- the end of the source, all of which has been written
    subst hb
    refine ⟨⟨h.seek hin, ?_⟩, ?_⟩
    · have := hnil rfl
      simp only [Fd.advance]
      omega
    · exact Nat.lt_of_lt_of_le (Nat.lt_succ_self 2) (Nat.le_add_left _ _)
  · obtain ⟨w, hw, hbuf, hlen⟩ := Buffered.start hoff hb (by omega) hread
    have hpos := List.length_pos_iff.2 hb
    simp only [gotBuf, if_neg (Nat.pos_iff_ne_zero.1 hpos), hw, wroteBuf]
    refine ⟨⟨h.seek (by omega), hbuf⟩, ?_⟩
    simp only [rdwrLeft, Pc.todo, rdwrTodo, Fd.advance, hlen]
    omega

theorem rdwr_write (h : Copying fs₀ src dst fdFrom fdTo fs)
    (hb : Buffered fs₀ fdFrom fdTo buf w) (nr : Int) (k : Nat) :
    RdwrInv fs₀ src dst (rdwrBody fs fdFrom fdTo (.write buf nr w) (.done k)) ∧
      rdwrLeft fs₀ src (rdwrBody fs fdFrom fdTo (.write buf nr w) (.done k)).pc <
        2 * ((fs₀.old src).length - fdFrom.off) + w.bytestowrite + 3 := by
  have hsplit := chunk_append_drop k w.bytestowrite (w.left buf)
  have hoffs := hb.offs
  have hcopy := h.write (by omega) (hb.take_add h.inside hsplit)
  have hpos := hb.pending.pending
  simp only [rdwrBody, if_neg hb.not_refused]
  rcases hb.pending.resume_chunk k with ⟨hret, hall⟩ | ⟨w', hagain, hin, hmore⟩
  · rw [hret, wroteBuf, if_neg (by omega)]
    refine ⟨⟨hcopy, ?_⟩, ?_⟩
    · simp only [Fd.advance, hall]
      exact hoffs
    · simp only [rdwrLeft, Pc.todo, rdwrTodo]
      omega
  · have hlen := congrArg List.length hmore
    have hne := List.length_pos_iff.2
      (mt (chunk_eq_nil (k := k) hpos).1 hb.pending.left_ne_nil)
    rw [List.length_append, hin.left_length, hb.pending.left_length] at hlen
    rw [hagain, wroteBuf]
    refine ⟨⟨hcopy, hin, hb.fits, ?_, ?_⟩, ?_⟩
    · simp only [Fd.advance]
      rw [hb.take_add h.inside hsplit, List.append_assoc, hmore]
      exact hb.bytes
    · simp only [Fd.advance]
      rw [hoffs, hin.left_length, hb.pending.left_length]
      omega
    · simp only [rdwrLeft, Pc.todo, rdwrTodo]
      omega

theorem rdwr_body (op : RdwrOp) (a : Answer)
    (ha : (Pc.body fdFrom fdTo op).fails RdwrOp.restarts a = false)
    (h : RdwrAt fs₀ src dst fs fdFrom fdTo op) :
    RdwrInv fs₀ src dst (rdwrBody fs fdFrom fdTo op a) ∧
      rdwrLeft fs₀ src (rdwrBody fs fdFrom fdTo op a).pc + (completes a).toNat ≤
        rdwrTodo (fs₀.old src).length fdFrom op := by
  obtain ⟨hc, h⟩ := h
  cases op with
  | malloc =>
    cases a with
    | fail e => simp [Pc.fails, Pc.restarts, RdwrOp.restarts] at ha
    | done k =>
      refine ⟨⟨hc, h⟩, ?_⟩
      simp only [rdwrBody, rdwrLeft, Pc.todo, rdwrTodo, completes, Bool.toNat_true]
      omega
  | read =>
    cases a with
    | fail e =>
      cases e with
      | eintr => exact ⟨⟨hc, h⟩, Nat.le_refl _⟩
      | _ => cases ha
    | done k => exact rdwr_read hc h k
  | write buf nr w =>
    cases a with
    | fail e =>
      cases e with
      | eintr =>
        simp only [rdwrBody, if_neg h.not_refused, h.pending.resume_eintr, wroteBuf]
        exact ⟨⟨hc, h⟩, Nat.le_refl _⟩
      | _ => cases ha
    | done k => exact rdwr_write hc h nr k
  | closeFrom =>
    cases a with
    | fail e => simp [Pc.fails, Pc.restarts, RdwrOp.restarts] at ha
    | done k => exact ⟨⟨hc, h⟩, Nat.le_refl _⟩
  | closeTo =>
    cases a with
    | fail e => simp [Pc.fails, Pc.restarts, RdwrOp.restarts] at ha
    | done k => exact ⟨hc.ends h, Nat.le_refl _⟩

theorem rdwr_enter (h : Opened fs₀ src dst fdFrom fdTo fs) (h0 : fdFrom.off = 0)
    (h0' : fdTo.off = 0) (hsrc : fs.data fdFrom.ino = fs₀.data fdFrom.ino)
    (hdst : fs.data fdTo.ino = fs₀.old dst) (hne : fs₀.data fdFrom.ino ≠ []) :
    RdwrAt fs₀ src dst fs fdFrom fdTo .malloc := by
  refine ⟨{ h with nonempty := hne, src_data := hsrc, dst_data := ?_, inside := ?_ }, ?_⟩
  · rw [hdst, h0', List.take_zero, List.drop_zero, List.nil_append]
  · rw [h0]
    exact Nat.zero_le _
  · exact h0.trans h0'.symm

variable [DecidableEq α]

theorem rdwr_step (s : Copy α RdwrOp) (a : Answer) (ha : rdwrFails s a = false)
    (h : RdwrInv fs₀ src dst s) :
    RdwrInv fs₀ src dst (rdwrStep src dst s a) ∧
      (s.pc.ended = false →
        rdwrLeft fs₀ src (rdwrStep src dst s a).pc + (completes a).toNat ≤
          rdwrLeft fs₀ src s.pc) := by
  apply At.step _ _ s a ha h
  · intro fs fdFrom fdTo hop h0 h0' hsrc hdst hne
    exact ⟨rdwr_enter hop h0 h0' hsrc hdst hne, Nat.le_refl _⟩
  · intro fs fdFrom fdTo op a ha h
    exact rdwr_body op a ha h

theorem rdwr_run (hgood : saw rdwrFails (rdwrStep src dst) ⟨.openFrom, fs₀⟩ as = false) :
    RdwrInv fs₀ src dst (rdwrFileio src dst fs₀ as) ∧
      (2 * (fs₀.old src).length + 7 < as.countP completes →
        (rdwrFileio src dst fs₀ as).pc.ended = true) :=
  At.run rdwr_step hgood

end

end SysPrg.Fileio
