import SysPrg.XferOpened
import SysPrg.XferClient

namespace SysPrg.Xfer
set_option autoImplicit true

/-- `process_client` has returned or its process has ended, so that its socket is closed. -/
def Pc.over : Pc → Bool
  | .returned _ | .exited _ _ | .sigpipe => true
  | _ => false

theorem Server.step_over (cfg : Config) {s : Server} (h : s.pc.over = true) (a : Answer) :
    s.step cfg a = s := by
  cases hp : s.pc with
  | returned | exited | sigpipe => simp only [Server.step, hp]
  | _ => rw [hp] at h; cases h

theorem Server.goto_s2c (s : Server) (pc : Pc) :
    (s.goto pc).net.s2c.wr = s.net.s2c.wr ∧ (s.goto pc).net.s2c.rd = s.net.s2c.rd := by
  simp only [Server.goto]
  split <;> exact ⟨rfl, rfl⟩

theorem Server.goto_shut {s : Server} {pc : Pc} (h : s.net.s2c.shut = false)
    (hs : (s.goto pc).net.s2c.shut = true) : pc.over = true := by
  simp only [Server.goto] at hs
  split at hs
  · next hd => cases pc <;> first | rfl | cases hd
  · rw [h] at hs
    cases hs

/-- What a step of the server does to the connection: it takes bytes from the client's stream,
appends to its own, and may close that. -/
structure Server.Extends (s s' : Server) : Prop where
  asked : s'.net.c2s.wr = s.net.c2s.wr
  appended : ∃ bs, s'.net.s2c.wr = s.net.s2c.wr ++ bs
  unread : s'.net.s2c.rd = s.net.s2c.rd
  closed : s.net.s2c.shut = false → s'.net.s2c.shut = true → s'.pc.over = true

theorem Server.Extends.refl (s : Server) : Server.Extends s s where
  asked := rfl
  appended := ⟨[], (List.append_nil _).symm⟩
  unread := rfl
  closed h hs := by rw [h] at hs; cases hs

theorem Server.Extends.goto {s t : Server} {pc : Pc} (hc : t.net.c2s.wr = s.net.c2s.wr)
    (hw : ∃ bs, t.net.s2c.wr = s.net.s2c.wr ++ bs) (hr : t.net.s2c.rd = s.net.s2c.rd)
    (hs : t.net.s2c.shut = s.net.s2c.shut) : Server.Extends s (t.goto pc) where
  asked := hc
  appended := by
    rw [(t.goto_s2c pc).1]
    exact hw
  unread := (t.goto_s2c pc).2.trans hr
  closed h h' := Server.goto_shut (hs.trans h) h'

theorem Server.goto_extends (s : Server) (pc : Pc) : Server.Extends s (s.goto pc) :=
  .goto rfl ⟨[], (List.append_nil _).symm⟩ rfl rfl

theorem Server.step_extends (cfg : Config) (s : Server) (a : Answer) :
    Server.Extends s (s.step cfg a) := by
  obtain ⟨pc, fd, net⟩ := s
  cases pc with
  | malloc => exact Server.goto_extends _ _
  | read =>
    cases a with
    | fail e => exact Server.goto_extends _ _
    | done k =>
      simp only [Server.step]
      split
      · exact .refl _
      · next hr => exact .goto (Stream.recv_wr hr) ⟨[], (List.append_nil _).symm⟩ rfl rfl
  | open2 name =>
    simp only [Server.step]
    split
    · exact .refl _
    · exact Server.goto_extends _ _
    · exact .goto rfl ⟨[], (List.append_nil _).symm⟩ rfl rfl
  | fstat =>
    cases a with
    | fail e => exact Server.goto_extends _ _
    | done k => exact Server.goto_extends _ _
  | sendfile stSize =>
    cases a with
    | fail e => exact Server.goto_extends _ _
    | done k => exact .goto rfl ⟨_, rfl⟩ rfl rfl
  | readPage tsent =>
    simp only [Server.step]
    split
    · exact .refl _
    · exact Server.goto_extends _ _
    · exact .goto rfl ⟨[], (List.append_nil _).symm⟩ rfl rfl
  | writePage rbuf w nr tsent =>
    cases a with
    | fail e => exact Server.goto_extends _ _
    | done k => exact .goto rfl ⟨_, rfl⟩ rfl rfl
  | closeFile =>
    simp only [Server.step]
    split
    · exact .refl _
    · exact Server.goto_extends _ _
  | closeSock =>
    simp only [Server.step]
    split
    · exact .refl _
    · exact ⟨rfl, ⟨[], (List.append_nil _).symm⟩, rfl, fun _ _ => rfl⟩
  | returned | exited | sigpipe | overrun => exact .refl _

end SysPrg.Xfer
