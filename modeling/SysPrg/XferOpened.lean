import SysPrg.XferSent

namespace SysPrg.Xfer
set_option autoImplicit true

/-- The calls that come after `r_open2` has succeeded, and the ways to end. -/
def Pc.pastOpen : Pc → Bool
  | .malloc | .read | .open2 _ => false
  | _ => true

/-- The descriptor holds a file that was opened under a name with property `Q`. -/
def Opened (Q : Bytes → Prop) (files : Bytes → Option Bytes) (data : Bytes) : Prop :=
  ∃ name, Q name ∧ files name = some data

/-- Which file `fd_send` is open on when `process_client` stands at a given call. -/
def OpenedAt (Q : Bytes → Prop) (files : Bytes → Option Bytes) (data : Bytes) : Pc → Prop
  | .malloc | .read => data = []
  | .open2 name => data = [] ∧ Q name
  | .exited _ _ | .sigpipe | .overrun => data = [] ∨ Opened Q files data
  | _ => Opened Q files data

theorem Opened.at (h : Opened Q files data) (hp : pc.pastOpen = true) :
    OpenedAt Q files data pc := by
  cases pc with
  | malloc | read | open2 => cases hp
  | exited | sigpipe | overrun => exact .inr h
  | fstat | sendfile | readPage | writePage | closeFile | closeSock | returned => exact h

theorem OpenedAt.opened_or_nil (h : OpenedAt Q files data pc) :
    data = [] ∨ Opened Q files data := by
  cases pc with
  | malloc | read => exact .inl h
  | open2 => exact .inl h.1
  | exited | sigpipe | overrun => exact h
  | fstat | sendfile | readPage | writePage | closeFile | closeSock | returned => exact .inr h

theorem gotFile_pastOpen (howto : Int) (r : Except Errno Unit) :
    (gotFile howto r).pastOpen = true := by
  unfold gotFile
  repeat' split
  all_goals rfl

theorem sentFile_pastOpen (r : Except Errno Nat) : (sentFile r).pastOpen = true := by
  unfold sentFile
  repeat' split
  all_goals rfl

theorem wrotePage_pastOpen (l : WriteLoop) : (wrotePage rbuf nr tsent l).pastOpen = true := by
  unfold wrotePage
  repeat' split
  all_goals rfl

theorem gotPage_pastOpen (r : Except Errno Bytes) : (gotPage tsent r).pastOpen = true := by
  cases r with
  | error e => rfl
  | ok bs =>
    simp only [gotPage]
    repeat' split
    · rfl
    · rfl
    · exact wrotePage_pastOpen _

theorem wroteSome_pastOpen (r : Except Errno Nat) :
    (wroteSome rbuf w nr tsent r).pastOpen = true := by
  unfold wroteSome
  split
  · rfl
  · exact wrotePage_pastOpen _

def Server.Names (Q : Bytes → Prop) (cfg : Config) (s : Server) : Prop :=
  OpenedAt Q cfg.files s.fd.data s.pc

theorem Server.Names.goto {s : Server} {pc : Pc} (h : OpenedAt Q cfg.files s.fd.data pc) :
    (s.goto pc).Names Q cfg := h

theorem Server.start_names (Q : Bytes → Prop) (cfg : Config) (c2s : Stream) :
    (Server.start c2s).Names Q cfg := rfl

theorem Server.Names.step (h : Server.Names Q cfg s)
    (hq : s.pc = .read → ∀ k bs c2s, s.net.c2s.recv k pathMax = some (bs, c2s) →
      Q (cStr bs))
    (a : Answer) : (s.step cfg a).Names Q cfg := by
  obtain ⟨pc, fd, net⟩ := s
  cases pc with
  | malloc =>
    cases a with
    | done k => exact h
    | fail e => exact .inl h
  | read =>
    cases a with
    | fail e => exact .inl h
    | done k =>
      simp only [Server.step]
      split
      · exact h
      · next bs c2s hr =>
        simp only [Server.Names, Server.goto_pc, Server.goto_fd, gotRequest]
        split
        · exact ⟨h, hq rfl k bs c2s hr⟩
        · exact .inl h
  | open2 name =>
    simp only [Server.step]
    split
    · exact h
    · exact .inl h.1
    · next data hr =>
      have hf : cfg.files name = some data := by
        cases a with
        | fail e => cases e <;> cases hr
        | done k =>
          simp only [Config.open] at hr
          split at hr
          · cases hr
          · next hf => cases hr; exact hf
      apply Server.Names.goto
      exact Opened.at ⟨name, h.2, hf⟩ (gotFile_pastOpen _ _)
  | fstat =>
    cases a with
    | fail e => exact .inr h
    | done k => exact h
  | sendfile stSize =>
    cases a with
    | fail e | done k =>
      apply Server.Names.goto
      exact Opened.at h (sentFile_pastOpen _)
  | readPage tsent =>
    simp only [Server.step]
    split
    · exact h
    · exact .inr h
    · apply Server.Names.goto
      exact Opened.at h (gotPage_pastOpen _)
  | writePage rbuf w nr tsent =>
    cases a with
    | fail e | done k =>
      apply Server.Names.goto
      exact Opened.at h (wroteSome_pastOpen _)
  | closeFile | closeSock =>
    simp only [Server.step]
    split <;> exact h
  | returned | exited | sigpipe | overrun => exact h

theorem Server.run_names (cfg : Config) (c2s : Stream) (es : List Answer) :
    (run (Server.step cfg) (Server.start c2s) es).Names (fun _ => True) cfg :=
  run_invariant (Server.Names (fun _ => True) cfg)
    (fun _ a h => h.step (fun _ _ _ _ _ => trivial) a) (Server.start_names _ cfg c2s) es

end SysPrg.Xfer
