import SysPrg.XferSaved

namespace SysPrg.Xfer
set_option autoImplicit true

def Pc.asked : Pc → Bool
  | .malloc | .read => false
  | _ => true

theorem Pc.asked_of_pastOpen {pc : Pc} (h : pc.pastOpen = true) : pc.asked = true := by
  cases pc with
  | malloc | read => cases h
  | _ => rfl

theorem Server.step_asked {s : Server} (h : s.pc.asked = true) (a : Answer) :
    (s.step cfg a).pc.asked = true := by
  obtain ⟨pc, fd, net⟩ := s
  cases pc with
  | malloc | read => cases h
  | open2 name =>
    simp only [Server.step]
    split
    · rfl
    · rfl
    · simp only [Server.goto_pc, Pc.asked_of_pastOpen (gotFile_pastOpen _ _)]
  | fstat =>
    cases a with
    | fail e | done k => rfl
  | sendfile stSize =>
    cases a with
    | fail e | done k =>
      simp only [Server.step, Server.goto_pc, Pc.asked_of_pastOpen (sentFile_pastOpen _)]
  | readPage tsent =>
    simp only [Server.step]
    split
    · rfl
    · rfl
    · simp only [Server.goto_pc, Pc.asked_of_pastOpen (gotPage_pastOpen _)]
  | writePage rbuf w nr tsent =>
    cases a with
    | fail e | done k =>
      simp only [Server.step, Server.goto_pc, Pc.asked_of_pastOpen (wroteSome_pastOpen _)]
  | closeFile | closeSock =>
    simp only [Server.step]
    split <;> rfl
  | returned | exited | sigpipe | overrun => rfl

theorem Server.step_unread {s : Server} (h : s.pc.asked = false → s.net.c2s.rd = 0) (a : Answer)
    (hp : (s.step cfg a).pc.asked = false) : (s.step cfg a).net.c2s.rd = 0 := by
  obtain ⟨pc, fd, net⟩ := s
  cases pc with
  | malloc => exact h rfl
  | read =>
    cases a with
    | fail e => cases hp
    | done k =>
      simp only [Server.step] at hp ⊢
      split at hp
      · exact h rfl
      · simp only [Server.goto_pc, gotRequest] at hp
        split at hp <;> cases hp
  | _ =>
    rw [Server.step_asked rfl a] at hp
    cases hp

theorem SavedAt.append {s2c t : Stream} (h : SavedAt s2c dest pc) (hs : s2c.shut = false)
    (hrd : s2c.rd ≤ s2c.wr.length) (hwr : t.wr = s2c.wr ++ bs) (hr : t.rd = s2c.rd) :
    SavedAt t dest pc := by
  have htake : t.wr.take t.rd = s2c.wr.take s2c.rd := by
    rw [hwr, hr, List.take_append_of_le_length hrd]
  cases pc with
  | writeName | open3 => exact hr.trans h
  | readPage => exact ⟨h.1.trans htake.symm, h.2⟩
  | writePage => exact ⟨h.1, h.2.1.trans htake.symm, h.2.2⟩
  | closeDest | closeSock | finished =>
    have hsh := h.2
    rw [hs] at hsh
    cases hsh
  | exited => exact h
  | sigpipe => trivial

theorem AskedAt.congr (h : AskedAt path c2s pc) (hw : t.wr = c2s.wr) : AskedAt path t pc := by
  cases pc with
  | writeName w => exact ⟨h.1, hw.symm ▸ h.2⟩
  | exited | sigpipe =>
    have hp : c2s.wr <+: path := h
    rw [← hw] at hp
    exact hp
  | open3 | readPage | writePage | closeDest | closeSock | finished => exact hw.trans h

/-- The account of the bytes: in the file, in the two page buffers, in flight and on disk. -/
structure Sys.Inv (cfg : Config) (path : Bytes) (s : Sys) : Prop where
  sound : s.svr.Sound cfg
  names : s.svr.Names (· <+: path) cfg
  unread : s.svr.pc.asked = false → s.svr.net.c2s.rd = 0
  shut : s.svr.net.s2c.shut = true → s.svr.pc.over = true
  read : s.svr.net.s2c.rd ≤ s.svr.net.s2c.wr.length
  saved : SavedAt s.svr.net.s2c s.cli.dest s.cli.pc
  asked : AskedAt path s.svr.net.c2s s.cli.pc

theorem Sys.start_inv (cfg : Config) (path prior : Bytes) :
    (Sys.start path prior).Inv cfg path where
  sound := Server.start_sound cfg _
  names := Server.start_names _ cfg _
  unread _ := rfl
  shut h := by cases h
  read := Nat.le_refl _
  saved := wroteName_saved rfl _
  asked := by
    by_cases hp : path = []
    · subst hp
      exact rfl
    · obtain ⟨w, hw, hin, hleft⟩ := rWrite_spec hp
      simp only [Sys.start, hw, wroteName]
      exact ⟨hin, hleft⟩

theorem Sys.Inv.step_svr (h : Sys.Inv cfg path s) (a : Answer) :
    (s.step cfg path page (.svr a)).Inv cfg path := by
  by_cases hsh : s.svr.net.s2c.shut = true
  · -- a stream that the client may have seen the end of is not written to any more
    have he := Server.step_over cfg (h.shut hsh) a
    simpa only [Sys.step, he] using h
  · have hsh' : s.svr.net.s2c.shut = false := Bool.eq_false_of_not_eq_true hsh
    have hext := Server.step_extends cfg s.svr a
    obtain ⟨bs, hbs⟩ := hext.appended
    exact {
      sound := h.sound.step a
      names := by
        apply h.names.step
        -- a request is what has come of the pathname, up to a NUL
        intro hp k bs c2s hr
        have hrd : s.svr.net.c2s.rd = 0 := h.unread (by rw [hp]; rfl)
        exact (List.takeWhile_prefix _).trans
          ((Stream.recv_isPrefix hrd hr).trans h.asked.isPrefix)
      unread := Server.step_unread h.unread a
      shut := hext.closed hsh'
      read := by
        simp only [Sys.step, hbs, hext.unread, List.length_append]
        exact Nat.le_add_right_of_le h.read
      saved := h.saved.append hsh' h.read hbs hext.unread
      asked := h.asked.congr hext.asked }

theorem Net.afterClient_s2c (net : Net) (pc : ClientPc) : (net.afterClient pc).s2c = net.s2c := by
  unfold Net.afterClient
  split <;> rfl

theorem Net.afterClient_c2s (net : Net) (pc : ClientPc) :
    (net.afterClient pc).c2s.wr = net.c2s.wr ∧ (net.afterClient pc).c2s.rd = net.c2s.rd := by
  unfold Net.afterClient
  split <;> exact ⟨rfl, rfl⟩

theorem Sys.Inv.step_cli (h : Sys.Inv cfg path s) (a : Answer) :
    (s.step cfg path page (.cli a)).Inv cfg path := by
  obtain ⟨hsaved, hreads⟩ := Client.step_saved path page h.read h.saved a
  obtain ⟨hasked, hrd⟩ := Client.step_asked page h.asked a
  have hs2c := Net.afterClient_s2c (s.cli.step path page s.svr.net a).2
    (s.cli.step path page s.svr.net a).1.pc
  obtain ⟨hc2s, hc2s'⟩ := Net.afterClient_c2s (s.cli.step path page s.svr.net a).2
    (s.cli.step path page s.svr.net a).1.pc
  have hsent : (s.step cfg path page (.cli a)).svr.sent = s.svr.sent := by
    simp only [Sys.step, Server.sent, hs2c, hreads.wr]
  exact {
    sound := by
      have hsound := h.sound
      rw [Server.Sound, ← hsent] at hsound
      exact hsound
    names := h.names
    unread := fun hp => (hc2s'.trans hrd).trans (h.unread hp)
    shut := by
      simp only [Sys.step, hs2c, hreads.shut]
      exact h.shut
    read := by
      simp only [Sys.step, hs2c]
      exact hreads.rd
    saved := by
      simp only [Sys.step, hs2c]
      exact hsaved
    asked := hasked.congr hc2s }

theorem Sys.Inv.step (h : Sys.Inv cfg path s) (e : Ev) : (s.step cfg path page e).Inv cfg path := by
  cases e with
  | svr a => exact h.step_svr a
  | cli a => exact h.step_cli a

def transfer (cfg : Config) (path prior : Bytes) (page : PageSize) (es : List Ev) : Sys :=
  run (Sys.step cfg path page) (Sys.start path prior) es

theorem transfer_inv (cfg : Config) (path prior : Bytes) (page : PageSize) (es : List Ev) :
    (transfer cfg path prior page es).Inv cfg path :=
  run_invariant (Sys.Inv cfg path) (fun _ e h => h.step e) (Sys.start_inv cfg path prior) es

end SysPrg.Xfer
