import SysPrg.XferSystem

namespace SysPrg.Xfer
set_option autoImplicit true

/-- What `DESTFILE` holds of the server's stream when the client stands at a given call. -/
def SavedAt (s2c : Stream) (dest : OpenFile) : ClientPc → Prop
  | .writeName _ | .open3 => s2c.rd = 0
  | .readPage _ => dest.data = s2c.wr.take s2c.rd ∧ dest.off = dest.data.length
  | .writePage rbuf w _ _ => w.Inside rbuf ∧ dest.data ++ w.left rbuf = s2c.wr.take s2c.rd ∧
      dest.off = dest.data.length
  | .closeDest | .closeSock | .finished => dest.data = s2c.wr ∧ s2c.shut = true
  | .exited _ status => status ≠ 0
  | .sigpipe => True

/-- How much of the pathname the client has written when it stands at a given call. -/
def AskedAt (path : Bytes) (c2s : Stream) : ClientPc → Prop
  | .writeName w => w.Inside path ∧ c2s.wr ++ w.left path = path
  | .exited _ _ | .sigpipe => c2s.wr <+: path
  | _ => c2s.wr = path

theorem AskedAt.isPrefix (h : AskedAt path c2s pc) : c2s.wr <+: path := by
  cases pc with
  | writeName w => exact ⟨_, h.2⟩
  | exited | sigpipe => exact h
  | open3 | readPage | writePage | closeDest | closeSock | finished =>
    have he : c2s.wr = path := h
    exact he ▸ List.prefix_refl _

theorem wroteName_saved (hr : s2c.rd = 0) (l : WriteLoop) : SavedAt s2c dest (wroteName l) := by
  cases l with
  | again w => exact hr
  | ret v =>
    simp only [wroteName]
    split
    · exact one_ne_zero
    · exact hr

theorem wroteNamePart_saved (hr : s2c.rd = 0) (r : Except Errno Nat) :
    SavedAt s2c dest (wroteNamePart w r) := by
  unfold wroteNamePart
  split
  · trivial
  · exact wroteName_saved hr _

theorem gotData_saved {s2c : Stream} {bs : Bytes} (hs : dest.data ++ bs = s2c.wr.take s2c.rd)
    (ho : dest.off = dest.data.length) (hl : bs.length < 2 ^ 31)
    (hb : bs = [] → dest.data = s2c.wr ∧ s2c.shut = true) :
    SavedAt s2c dest (gotData trecv (.ok bs)) := by
  simp only [gotData, toInt_of_lt hl]
  by_cases hn : bs = []
  · have he := hb hn
    subst hn
    exact he
  · have hpos := List.length_pos_iff.2 hn
    obtain ⟨w, hw, hin, hleft⟩ := rWrite_spec hn
    rw [if_neg (by omega), if_neg (by omega), Int.toNat_natCast, hw]
    exact ⟨hin, hleft.symm ▸ hs, ho⟩

theorem savedPage_saved {s2c : Stream} {dest : OpenFile} (hw : RWrite.Inside w rbuf)
    (hs : dest.data ++ w.left rbuf = s2c.wr.take s2c.rd) (ho : dest.off = dest.data.length)
    (k : Nat) :
    SavedAt s2c (dest.write (chunk k w.bytestowrite (w.left rbuf)))
      (savedPage rbuf nr trecv
        (w.resume (.ok (chunk k w.bytestowrite (w.left rbuf)).length))) := by
  have hdata : (dest.write (chunk k w.bytestowrite (w.left rbuf))).data =
      dest.data ++ chunk k w.bytestowrite (w.left rbuf) := by
    simp only [OpenFile.write, ho, writeAt_end]
  have hoff : (dest.write (chunk k w.bytestowrite (w.left rbuf))).off =
      (dest.write (chunk k w.bytestowrite (w.left rbuf))).data.length := by
    rw [hdata, List.length_append]
    simp only [OpenFile.write, ho]
  rcases hw.resume_chunk k with ⟨hr, hall⟩ | ⟨w', hr, hin, hsplit⟩
  · have hpos : ¬ (rbuf.length : Int) ≤ 0 := by
      have := hw.length_pos
      omega
    simp only [hr, savedPage, if_neg hpos]
    refine ⟨?_, hoff⟩
    rw [hdata, hall, hs]
  · simp only [hr, savedPage]
    refine ⟨hin, ?_, hoff⟩
    rw [hdata, List.append_assoc, hsplit, hs]

theorem savedPage_error_saved {s2c : Stream} {dest : OpenFile} (hw : RWrite.Inside w rbuf)
    (hs : dest.data ++ w.left rbuf = s2c.wr.take s2c.rd) (ho : dest.off = dest.data.length)
    (e : Errno) : SavedAt s2c dest (savedPage rbuf nr trecv (w.resume (.error e))) := by
  by_cases hi : e = .eintr
  · subst e
    rw [hw.resume_eintr]
    exact ⟨hw, hs, ho⟩
  · rw [w.resume_error hi]
    exact one_ne_zero

/-- The client leaves the server's stream as it is, but for what it reads of it. -/
structure Net.Reads (net net' : Net) : Prop where
  wr : net'.s2c.wr = net.s2c.wr
  shut : net'.s2c.shut = net.s2c.shut
  rd : net'.s2c.rd ≤ net'.s2c.wr.length

theorem Client.step_saved (path : Bytes) (page : PageSize) {c : Client} {net : Net}
    (hrd : net.s2c.rd ≤ net.s2c.wr.length)
    (h : SavedAt net.s2c c.dest c.pc) (a : Answer) :
    SavedAt (c.step path page net a).2.s2c (c.step path page net a).1.dest
        (c.step path page net a).1.pc ∧
      Net.Reads net (c.step path page net a).2 := by
  obtain ⟨pc, dest⟩ := c
  have hsame : Net.Reads net net := ⟨rfl, rfl, hrd⟩
  cases pc with
  | writeName w =>
    cases a with
    | fail e => exact ⟨wroteNamePart_saved h _, hsame⟩
    | done k =>
      simp only [Client.step, Client.goto]
      exact ⟨wroteNamePart_saved h _, rfl, rfl, hrd⟩
  | open3 =>
    simp only [Client.step]
    split
    · exact ⟨h, hsame⟩
    · exact ⟨one_ne_zero, hsame⟩
    · refine ⟨⟨?_, rfl⟩, hsame⟩
      have hr : net.s2c.rd = 0 := h
      rw [hr]
      rfl
  | readPage trecv =>
    cases a with
    | fail e =>
      simp only [Client.step]
      split
      · exact ⟨h, hsame⟩
      · next r hr =>
        have he := restart_eq_some hr
        subst he
        exact ⟨one_ne_zero, hsame⟩
    | done k =>
      simp only [Client.step]
      split
      · exact ⟨h, hsame⟩
      · next bs s2c hr =>
        obtain ⟨hw, hsh, hle, hcount, htake, hend⟩ := Stream.recv_spec page.pos hrd hr
        have hfits := page.fits
        refine ⟨gotData_saved ?_ h.2 (by omega) ?_, hw, hsh, hle⟩
        · rw [htake]
          exact congrArg (· ++ bs) h.1
        · intro hn
          obtain ⟨hall, hshut⟩ := hend hn
          exact ⟨h.1.trans (hall.trans hw.symm), hsh.trans hshut⟩
  | writePage rbuf w nr trecv =>
    obtain ⟨hin, hs, ho⟩ := h
    cases a with
    | fail e => exact ⟨savedPage_error_saved hin hs ho e, hsame⟩
    | done k => exact ⟨savedPage_saved hin hs ho k, hsame⟩
  | closeDest | closeSock =>
    simp only [Client.step]
    split <;> exact ⟨h, hsame⟩
  | finished | exited | sigpipe => exact ⟨h, hsame⟩

theorem wroteNamePart_error_asked {c2s : Stream} (hw : RWrite.Inside w path)
    (hs : c2s.wr ++ w.left path = path) (e : Errno) :
    AskedAt path c2s (wroteNamePart w (.error e)) := by
  have hp : c2s.wr <+: path := ⟨_, hs⟩
  by_cases hi : e = .eintr
  · subst e
    simp only [wroteNamePart, hw.resume_eintr, wroteName]
    exact ⟨hw, hs⟩
  · have hr := w.resume_error hi
    cases e with
    | epipe => exact hp
    | _ =>
      simp only [wroteNamePart, hr, wroteName]
      exact hp

theorem wroteNamePart_asked {c2s : Stream} (hw : RWrite.Inside w path)
    (hs : c2s.wr ++ w.left path = path) (k : Nat) :
    AskedAt path (c2s.send (chunk k w.bytestowrite (w.left path)))
      (wroteNamePart w (.ok (chunk k w.bytestowrite (w.left path)).length)) := by
  rcases hw.resume_chunk k with ⟨hr, hall⟩ | ⟨w', hr, hin, hsplit⟩
  · have hneg : ¬ (path.length : Int) < 0 := by omega
    simp only [wroteNamePart, hr, wroteName, if_neg hneg]
    rw [hall]
    exact hs
  · simp only [wroteNamePart, hr, wroteName]
    refine ⟨hin, ?_⟩
    simp only [Stream.send]
    rw [List.append_assoc, hsplit, hs]

theorem savedPage_asked {c2s : Stream} (h : c2s.wr = path) (l : WriteLoop) :
    AskedAt path c2s (savedPage rbuf nr trecv l) := by
  unfold savedPage
  repeat' split
  · exact h
  · exact h ▸ List.prefix_refl _
  · exact h

theorem gotData_asked {c2s : Stream} (h : c2s.wr = path) (r : Except Errno Bytes) :
    AskedAt path c2s (gotData trecv r) := by
  cases r with
  | error e => exact h ▸ List.prefix_refl _
  | ok bs =>
    simp only [gotData]
    repeat' split
    · exact h
    · exact h ▸ List.prefix_refl _
    · exact savedPage_asked h _

theorem Client.step_asked (page : PageSize) {c : Client} {net : Net}
    (h : AskedAt path net.c2s c.pc) (a : Answer) :
    AskedAt path (c.step path page net a).2.c2s (c.step path page net a).1.pc ∧
      (c.step path page net a).2.c2s.rd = net.c2s.rd := by
  obtain ⟨pc, dest⟩ := c
  have hp := AskedAt.isPrefix h
  cases pc with
  | writeName w =>
    cases a with
    | fail e => exact ⟨wroteNamePart_error_asked h.1 h.2 e, rfl⟩
    | done k => exact ⟨wroteNamePart_asked h.1 h.2 k, rfl⟩
  | open3 =>
    simp only [Client.step]
    split
    · exact ⟨h, rfl⟩
    · exact ⟨hp, rfl⟩
    · exact ⟨h, rfl⟩
  | readPage trecv =>
    cases a with
    | fail e =>
      simp only [Client.step, Client.goto]
      split
      · exact ⟨h, rfl⟩
      · exact ⟨gotData_asked h _, rfl⟩
    | done k =>
      simp only [Client.step, Client.goto]
      split
      · exact ⟨h, rfl⟩
      · next bs s2c hr => exact ⟨gotData_asked h (.ok bs), rfl⟩
  | writePage rbuf w nr trecv =>
    cases a with
    | fail e | done k => exact ⟨savedPage_asked h _, rfl⟩
  | closeDest | closeSock =>
    simp only [Client.step]
    split <;> exact ⟨h, rfl⟩
  | finished | exited | sigpipe => exact ⟨h, rfl⟩

end SysPrg.Xfer
