import SysPrg.XferServer

namespace SysPrg.Xfer
set_option autoImplicit true

def Server.sent (s : Server) : Bytes := s.net.s2c.wr

@[simp] theorem Server.goto_pc (s : Server) (pc : Pc) : (s.goto pc).pc = pc := rfl

@[simp] theorem Server.goto_fd (s : Server) (pc : Pc) : (s.goto pc).fd = s.fd := rfl

@[simp] theorem Server.goto_sent (s : Server) (pc : Pc) : (s.goto pc).sent = s.sent := by
  simp only [Server.goto, Server.sent]
  split <;> rfl

theorem Pc.failed_of_dead {pc : Pc} (h : pc.dead = true) : pc.failed = true := by
  cases pc with
  | exited | sigpipe => rfl
  | _ => cases h

theorem Server.step_failed (cfg : Config) {s : Server} (h : s.pc.failed = true) (a : Answer) :
    s.step cfg a = s := by
  cases hp : s.pc with
  | exited | sigpipe | overrun => simp only [Server.step, hp]
  | _ => rw [hp] at h; cases h

/-- What has been sent of the file when `process_client` stands at a given call. -/
def SentAt (howto : Int) (fd : OpenFile) (sent : Bytes) : Pc → Prop
  | .malloc | .read | .open2 _ => sent = []
  | .fstat => sent = [] ∧ fd.off = 0 ∧ howto = modern
  | .sendfile stSize => sent = [] ∧ fd.off = 0 ∧ stSize = fd.data.length ∧ howto = modern
  | .readPage _ => sent = fd.data.take fd.off ∧ howto = traditional
  | .writePage rbuf w _ _ =>
    w.Inside rbuf ∧ sent ++ w.left rbuf = fd.data.take fd.off ∧ howto = traditional
  | .closeFile | .closeSock | .returned _ =>
    sent <+: fd.data ∧ (howto = traditional → sent = fd.data)
  | .exited _ _ | .sigpipe | .overrun => sent <+: fd.data

theorem SentAt.isPrefix (h : SentAt howto fd sent pc) : sent <+: fd.data := by
  cases pc with
  | malloc | read | open2 => exact h ▸ List.nil_prefix
  | fstat | sendfile => exact h.1 ▸ List.nil_prefix
  | readPage => exact h.1 ▸ List.take_prefix _ _
  | writePage => exact (List.prefix_append _ _).trans (h.2.1 ▸ List.take_prefix _ _)
  | closeFile | closeSock | returned => exact h.1
  | exited | sigpipe | overrun => exact h

theorem gotBuffer_sent (r : Except Errno Unit) : SentAt howto fd [] (gotBuffer r) := by
  cases r with
  | error e => exact List.nil_prefix
  | ok => rfl

theorem gotRequest_sent (r : Except Errno Bytes) : SentAt howto fd [] (gotRequest r) := by
  cases r with
  | error e => exact List.nil_prefix
  | ok bs =>
    unfold gotRequest
    by_cases h : bs.length < pathMax
    · simp only [if_pos h, SentAt]
    · simp only [if_neg h, SentAt, List.nil_prefix]

theorem gotFile_sent (howto : Int) (data : Bytes) :
    SentAt howto ⟨data, 0⟩ [] (gotFile howto (.ok ())) := by
  unfold gotFile
  by_cases hm : howto = modern
  · rw [if_pos hm]
    exact ⟨rfl, rfl, hm⟩
  · rw [if_neg hm]
    by_cases ht : howto = traditional
    · rw [if_pos ht]
      exact ⟨rfl, ht⟩
    · rw [if_neg ht]
      exact ⟨List.nil_prefix, fun h => (ht h).elim⟩

theorem sentFile_sent (hp : sent <+: fd.data) (hm : howto = modern) (r : Except Errno Nat) :
    SentAt howto fd sent (sentFile r) := by
  have hc : SentAt howto fd sent .closeFile := by
    refine ⟨hp, fun ht => ?_⟩
    rw [hm] at ht
    cases ht
  cases r with
  | error e => cases e <;> exact hp
  | ok n =>
    by_cases hn : toInt n < 0
    · simp only [sentFile, if_pos hn]
      exact hp
    · simp only [sentFile, if_neg hn]
      exact hc

theorem gotPage_spec (tsent : Int) (hl : bs.length < 2 ^ 31) :
    (bs = [] ∧ gotPage tsent (.ok bs) = .closeFile) ∨
      ∃ w, gotPage tsent (.ok bs) = .writePage bs w bs.length tsent ∧ RWrite.Inside w bs ∧
        w.left bs = bs := by
  simp only [gotPage, toInt_of_lt hl]
  by_cases hn : bs = []
  · subst hn
    exact .inl ⟨rfl, rfl⟩
  · have hpos := List.length_pos_iff.2 hn
    obtain ⟨w, hw, hin, hleft⟩ := rWrite_spec hn
    rw [if_neg (by omega), if_neg (by omega), Int.toNat_natCast, hw]
    exact .inr ⟨w, rfl, hin, hleft⟩

theorem wroteSome_spec (hw : RWrite.Inside w rbuf) (nr tsent : Int) (k : Nat) :
    (wroteSome rbuf w nr tsent (.ok (chunk k w.bytestowrite (w.left rbuf)).length) =
        .readPage (toInt (tsent + nr)) ∧
      chunk k w.bytestowrite (w.left rbuf) = w.left rbuf) ∨
    ∃ w', wroteSome rbuf w nr tsent (.ok (chunk k w.bytestowrite (w.left rbuf)).length) =
        .writePage rbuf w' nr tsent ∧ RWrite.Inside w' rbuf ∧
      chunk k w.bytestowrite (w.left rbuf) ++ w'.left rbuf = w.left rbuf := by
  rcases hw.resume_chunk k with ⟨hr, hall⟩ | ⟨w', hr, hin, hsplit⟩
  · have hpos : ¬ (rbuf.length : Int) ≤ 0 := by
      have := hw.length_pos
      omega
    refine .inl ⟨?_, hall⟩
    simp only [wroteSome, hr, wrotePage, if_neg hpos]
  · refine .inr ⟨w', ?_, hin, hsplit⟩
    simp only [wroteSome, hr, wrotePage]

theorem wroteSome_error_spec (hw : RWrite.Inside w rbuf) (nr tsent : Int) (e : Errno) :
    (e = .eintr ∧ wroteSome rbuf w nr tsent (.error e) = .writePage rbuf w nr tsent) ∨
      (e ≠ .eintr ∧ (wroteSome rbuf w nr tsent (.error e)).dead = true) := by
  by_cases hi : e = .eintr
  · subst e
    refine .inl ⟨rfl, ?_⟩
    simp only [wroteSome, hw.resume_eintr, wrotePage]
  · have hr := w.resume_error hi
    refine .inr ⟨hi, ?_⟩
    cases e with
    | epipe => rfl
    | _ =>
      simp only [wroteSome, hr, wrotePage]
      rfl

theorem gotPage_sent {bs : Bytes} (hs : sent ++ bs = fd.data.take fd.off)
    (hl : bs.length < 2 ^ 31) (hb : bs = [] → sent = fd.data) (ht : howto = traditional) :
    SentAt howto fd sent (gotPage tsent (.ok bs)) := by
  rcases gotPage_spec tsent hl with ⟨hn, hp⟩ | ⟨w, hp, hin, hleft⟩
  · rw [hp]
    exact ⟨hb hn ▸ List.prefix_refl _, fun _ => hb hn⟩
  · rw [hp]
    exact ⟨hin, hleft.symm ▸ hs, ht⟩

theorem wroteSome_sent (hw : RWrite.Inside w rbuf)
    (hs : sent ++ w.left rbuf = fd.data.take fd.off) (ht : howto = traditional) (k : Nat) :
    SentAt howto fd (sent ++ chunk k w.bytestowrite (w.left rbuf))
      (wroteSome rbuf w nr tsent (.ok (chunk k w.bytestowrite (w.left rbuf)).length)) := by
  rcases wroteSome_spec hw nr tsent k with ⟨hp, hall⟩ | ⟨w', hp, hin, hsplit⟩
  · rw [hp, hall]
    exact ⟨hs, ht⟩
  · rw [hp]
    refine ⟨hin, ?_, ht⟩
    rw [List.append_assoc, hsplit, hs]

theorem SentAt.of_dead (h : sent <+: fd.data) (hp : Pc.dead pc = true) :
    SentAt howto fd sent pc := by
  cases pc with
  | exited | sigpipe => exact h
  | _ => cases hp

theorem wroteSome_error_sent (hw : RWrite.Inside w rbuf)
    (hs : sent ++ w.left rbuf = fd.data.take fd.off) (ht : howto = traditional) (e : Errno) :
    SentAt howto fd sent (wroteSome rbuf w nr tsent (.error e)) := by
  have hpre : sent <+: fd.data := (List.prefix_append _ _).trans (hs ▸ List.take_prefix _ _)
  rcases wroteSome_error_spec hw nr tsent e with ⟨-, hp⟩ | ⟨-, hp⟩
  · rw [hp]
    exact ⟨hw, hs, ht⟩
  · exact .of_dead hpre hp

def Server.Sound (cfg : Config) (s : Server) : Prop := SentAt cfg.howto s.fd s.sent s.pc

theorem Server.Sound.goto {s : Server} {pc : Pc} (h : SentAt cfg.howto s.fd s.sent pc) :
    (s.goto pc).Sound cfg := by
  simpa only [Server.Sound, Server.goto_pc, Server.goto_fd, Server.goto_sent] using h

theorem Server.start_sound (cfg : Config) (c2s : Stream) : (Server.start c2s).Sound cfg := rfl

theorem Server.Sound.step_sendfile {fd : OpenFile} {net : Net}
    (h : Server.Sound cfg ⟨.sendfile stSize, fd, net⟩) (a : Answer) :
    (Server.step cfg ⟨.sendfile stSize, fd, net⟩ a).Sound cfg := by
  obtain ⟨hs, hoff, -, hm⟩ := h
  cases a with
  | fail e =>
    apply Server.Sound.goto
    exact sentFile_sent (hs ▸ List.nil_prefix) hm _
  | done k =>
    apply Server.Sound.goto
    apply sentFile_sent _ hm
    simp only [Server.sent] at hs hoff
    simp only [Server.sent, Stream.send, hs, OpenFile.next, hoff, List.drop_zero]
    exact List.take_prefix _ _

theorem Server.Sound.step_readPage {fd : OpenFile} {net : Net}
    (h : Server.Sound cfg ⟨.readPage tsent, fd, net⟩) (a : Answer) :
    (Server.step cfg ⟨.readPage tsent, fd, net⟩ a).Sound cfg := by
  have hs : net.s2c.wr = fd.data.take fd.off := h.1
  cases a with
  | fail e =>
    simp only [Server.step, OpenFile.read]
    split
    · exact h
    · apply Server.Sound.goto
      exact SentAt.isPrefix h
    · next hr => cases e <;> cases hr
  | done k =>
    apply Server.Sound.goto
    apply gotPage_sent _ (cfg.page.next_length fd k) _ h.2
    · simp only [Server.sent, hs]
      exact (fd.take_advance k cfg.page.size).symm
    · -- an empty page is the end of the file, which has then been sent
      intro hnil
      rw [OpenFile.next, chunk_eq_nil cfg.page.pos] at hnil
      have hend := List.drop_eq_nil_iff.1 hnil
      simp only [Server.sent, hs, OpenFile.advance]
      exact List.take_of_length_le hend

theorem Server.Sound.step (h : Server.Sound cfg s) (a : Answer) : (s.step cfg a).Sound cfg := by
  obtain ⟨pc, fd, net⟩ := s
  have hp := SentAt.isPrefix h
  cases pc with
  | malloc =>
    have hs : net.s2c.wr = [] := h
    apply Server.Sound.goto
    simp only [Server.sent, hs]
    exact gotBuffer_sent _
  | read =>
    have hs : net.s2c.wr = [] := h
    cases a with
    | fail e =>
      apply Server.Sound.goto
      exact hp
    | done k =>
      simp only [Server.step]
      split
      · -- nothing has come yet, and the call blocks
        exact h
      · apply Server.Sound.goto
        simp only [Server.sent, hs]
        exact gotRequest_sent _
  | open2 name =>
    have hs : net.s2c.wr = [] := h
    simp only [Server.step]
    split
    · exact h
    · apply Server.Sound.goto
      exact hp
    · apply Server.Sound.goto
      simp only [Server.sent, hs]
      exact gotFile_sent _ _
  | fstat =>
    cases a with
    | fail e =>
      apply Server.Sound.goto
      exact hp
    | done k =>
      apply Server.Sound.goto
      exact ⟨h.1, h.2.1, rfl, h.2.2⟩
  | sendfile stSize => exact h.step_sendfile a
  | readPage tsent => exact h.step_readPage a
  | writePage rbuf w nr tsent =>
    obtain ⟨hin, hs, ht⟩ := h
    cases a with
    | fail e =>
      apply Server.Sound.goto
      exact wroteSome_error_sent hin hs ht e
    | done k =>
      apply Server.Sound.goto
      exact wroteSome_sent hin hs ht k
  | closeFile | closeSock =>
    simp only [Server.step]
    split
    · exact h
    · apply Server.Sound.goto
      exact h
  | returned | exited | sigpipe | overrun => exact h

theorem Server.run_sound (cfg : Config) (c2s : Stream) (es : List Answer) :
    (run (Server.step cfg) (Server.start c2s) es).Sound cfg :=
  run_invariant (Server.Sound cfg) (fun _ a h => h.step a) (Server.start_sound cfg c2s) es

end SysPrg.Xfer
