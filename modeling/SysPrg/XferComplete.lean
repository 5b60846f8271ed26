import SysPrg.XferTransfer

namespace SysPrg.Xfer
set_option autoImplicit true

def ClientPc.received : ClientPc → Bool
  | .closeDest | .closeSock | .finished => true
  | _ => false

/-- The loop ends only at the end of a closed stream, all of which is then in `DESTFILE`. -/
theorem Sys.Inv.received_all (h : Sys.Inv cfg path s) (hc : s.cli.pc.received = true) :
    s.cli.dest.data = s.svr.sent ∧ s.svr.pc.over = true := by
  have hsaved := h.saved
  cases hp : s.cli.pc with
  | closeDest | closeSock | finished =>
    rw [hp] at hsaved
    exact ⟨hsaved.1, h.shut hsaved.2⟩
  | _ => rw [hp] at hc; cases hc

theorem Sys.Inv.received_of_status (h : Sys.Inv cfg path s) (hc : s.cli.pc.status = some 0) :
    s.cli.pc.received = true := by
  have hsaved := h.saved
  cases hp : s.cli.pc with
  | finished => rfl
  | exited err status =>
    rw [hp] at hc hsaved
    cases hc
    exact (hsaved rfl).elim
  | _ => rw [hp] at hc; cases hc

theorem Sys.Inv.returned_all (h : Sys.Inv cfg path s) (hh : cfg.howto = traditional)
    (hs : s.svr.pc = .returned rv) :
    ∃ name, name <+: path ∧ cfg.files name = some s.svr.sent := by
  have hsound := h.sound
  have hnames := h.names
  simp only [Server.Sound, hs] at hsound
  simp only [Server.Names, hs] at hnames
  obtain ⟨name, hpre, hf⟩ := hnames
  exact ⟨name, hpre, (hsound.2 hh).symm ▸ hf⟩

/-- `DESTFILE` holds exactly the file that the server opened under the name it read. -/
theorem traditional_transfer_exact (hh : cfg.howto = traditional)
    (hs : (transfer cfg path prior page es).svr.pc = .returned 0)
    (hc : (transfer cfg path prior page es).cli.pc.received = true) :
    (transfer cfg path prior page es).cli.dest.data =
        (transfer cfg path prior page es).svr.fd.data ∧
      ∃ name, name <+: path ∧
        cfg.files name = some (transfer cfg path prior page es).cli.dest.data := by
  have h := transfer_inv cfg path prior page es
  obtain ⟨hdest, -⟩ := h.received_all hc
  have hsound := h.sound
  simp only [Server.Sound, hs] at hsound
  obtain ⟨name, hpre, hf⟩ := h.returned_all hh hs
  exact ⟨hdest.trans (hsound.2 hh), name, hpre, hdest.symm ▸ hf⟩

def page1 : PageSize := ⟨1, by decide, by decide⟩

def oneFile (howto : Int) (page : PageSize) (file : Bytes) : Config :=
  ⟨fun name => if name = [97] then some file else none, howto, page⟩

/-- A transfer of two pages of one byte, with one interrupted `read`. -/
def twoPages : List Ev :=
  [.cli (.done 0), .svr (.done 0), .svr (.done 0), .svr (.done 0), .svr (.done 0),
    .cli (.done 0), .svr (.fail .eintr), .svr (.done 0), .svr (.done 0), .cli (.done 0),
    .svr (.done 0), .cli (.done 0), .svr (.done 0), .svr (.done 0), .svr (.done 0),
    .cli (.done 0), .cli (.done 0), .cli (.done 0)]

theorem traditional_transfer_two_pages :
    (transfer (oneFile traditional page1 [1, 2]) [97] [7, 7, 7] page1 twoPages).cli.dest.data =
        (transfer (oneFile traditional page1 [1, 2]) [97] [7, 7, 7] page1 twoPages).svr.fd.data ∧
      ∃ name, name <+: [97] ∧ (oneFile traditional page1 [1, 2]).files name = some
        (transfer (oneFile traditional page1 [1, 2]) [97] [7, 7, 7] page1 twoPages).cli.dest.data :=
  traditional_transfer_exact rfl (by decide +kernel) (by decide +kernel)

/-- What the client's success says: `DESTFILE` holds what the server had put on the socket when it
closed it, a part from the start of the file it had opened, if it had opened one. It is the whole
file when the server returned in the `TRADITIONAL` way. -/
theorem client_success_saves_sent
    (hc : (transfer cfg path prior page es).cli.pc.status = some 0) :
    (transfer cfg path prior page es).svr.pc.over = true ∧
      (transfer cfg path prior page es).cli.dest.data =
        (transfer cfg path prior page es).svr.sent ∧
      (transfer cfg path prior page es).cli.dest.data <+:
        (transfer cfg path prior page es).svr.fd.data ∧
      ((transfer cfg path prior page es).cli.dest.data = [] ∨
        ∃ name, name <+: path ∧
          cfg.files name = some (transfer cfg path prior page es).svr.fd.data) ∧
      (cfg.howto = traditional → (transfer cfg path prior page es).svr.pc = .returned 0 →
        ∃ name, name <+: path ∧
          cfg.files name = some (transfer cfg path prior page es).cli.dest.data) := by
  have h := transfer_inv cfg path prior page es
  obtain ⟨hdest, hover⟩ := h.received_all (h.received_of_status hc)
  have hsent := h.sound.isPrefix
  refine ⟨hover, hdest, hdest ▸ hsent, ?_, ?_⟩
  · rw [hdest]
    rcases h.names.opened_or_nil with hnil | hopened
    · rw [hnil] at hsent
      exact .inl (List.prefix_nil.1 hsent)
    · exact .inr hopened
  · intro hh hs
    rw [hdest]
    exact h.returned_all hh hs

/-- The server's second `read` of the file fails after the first page has been sent. -/
def readFails : List Ev :=
  [.cli (.done 0), .svr (.done 0), .svr (.done 0), .svr (.done 0), .svr (.done 0),
    .svr (.done 0), .svr (.fail (.other 5)), .cli (.done 0), .cli (.done 0), .cli (.done 0),
    .cli (.done 0), .cli (.done 0), .cli (.done 0)]

theorem client_success_after_read_error :
    (transfer (oneFile traditional page1 [1, 2]) [97] [] page1 readFails).svr.pc.over = true ∧
      (transfer (oneFile traditional page1 [1, 2]) [97] [] page1 readFails).cli.dest.data =
        (transfer (oneFile traditional page1 [1, 2]) [97] [] page1 readFails).svr.sent ∧
      (transfer (oneFile traditional page1 [1, 2]) [97] [] page1 readFails).cli.dest.data <+:
        (transfer (oneFile traditional page1 [1, 2]) [97] [] page1 readFails).svr.fd.data ∧
      ((transfer (oneFile traditional page1 [1, 2]) [97] [] page1 readFails).cli.dest.data = [] ∨
        ∃ name, name <+: [97] ∧ (oneFile traditional page1 [1, 2]).files name =
          some (transfer (oneFile traditional page1 [1, 2]) [97] [] page1 readFails).svr.fd.data) ∧
      ((oneFile traditional page1 [1, 2]).howto = traditional →
        (transfer (oneFile traditional page1 [1, 2]) [97] [] page1 readFails).svr.pc =
          .returned 0 →
        ∃ name, name <+: [97] ∧ (oneFile traditional page1 [1, 2]).files name = some
          (transfer (oneFile traditional page1 [1, 2]) [97] [] page1 readFails).cli.dest.data) :=
  client_success_saves_sent (by decide +kernel)

/-- The client exits with status 0 although it has half of the file. -/
theorem client_success_not_whole_file :
    ¬ ∀ (cfg : Config) (path prior file : Bytes) (page : PageSize) (es : List Ev),
      cfg.files path = some file →
      (transfer cfg path prior page es).cli.pc.status = some 0 →
      (transfer cfg path prior page es).cli.dest.data = file := by
  intro h
  have hc := h (oneFile traditional page1 [1, 2]) [97] [] [1, 2] page1 readFails rfl
    (by decide +kernel)
  revert hc
  decide +kernel

end SysPrg.Xfer
