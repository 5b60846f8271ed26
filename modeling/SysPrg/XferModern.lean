import SysPrg.XferOpened

namespace SysPrg.Xfer
set_option autoImplicit true

def Pc.settled : Pc → Bool
  | .closeFile | .closeSock | .returned _ | .exited _ _ | .sigpipe | .overrun => true
  | _ => false

theorem modern_ne_traditional : modern ≠ traditional := by decide

theorem Server.run_failed (h : Pc.failed s.pc = true) (es : List Answer) :
    run (Server.step cfg) s es = s :=
  run_fixed (Server.step_failed cfg h) es

theorem Server.step_settled (cfg : Config) {s : Server} (h : s.pc.settled = true) (a : Answer) :
    (s.step cfg a).pc.settled = true ∧ (s.step cfg a).sent = s.sent ∧
      (s.step cfg a).fd = s.fd := by
  obtain ⟨pc, fd, net⟩ := s
  cases pc with
  | closeFile | closeSock =>
    simp only [Server.step]
    split <;> exact ⟨rfl, rfl, rfl⟩
  | returned | exited | sigpipe | overrun => exact ⟨rfl, rfl, rfl⟩
  | malloc | read | open2 | fstat | sendfile | readPage | writePage => cases h

theorem Server.run_settled (cfg : Config) {s : Server} (h : s.pc.settled = true)
    (es : List Answer) :
    (run (Server.step cfg) s es).sent = s.sent ∧ (run (Server.step cfg) s es).fd = s.fd := by
  induction es generalizing s with
  | nil => exact ⟨rfl, rfl⟩
  | cons a es ih =>
    obtain ⟨hs, he, hf⟩ := Server.step_settled cfg h a
    obtain ⟨he', hf'⟩ := ih hs
    exact ⟨he'.trans he, hf'.trans hf⟩

/-- Every `sendfile` that the run answers moves all the bytes it was asked to move. -/
def FullSendfile (cfg : Config) (s : Server) : List Answer → Prop
  | [] => True
  | a :: es => (∀ stSize k, s.pc = .sendfile stSize → a = .done k → stSize ≤ k + 1) ∧
      FullSendfile cfg (s.step cfg a) es

theorem FullSendfile.settled {s : Server} (h : s.pc.settled = true)
    (es : List Answer) :
    FullSendfile cfg s es := by
  induction es generalizing s with
  | nil => trivial
  | cons a es ih =>
    refine ⟨?_, ih (Server.step_settled cfg h a).1⟩
    intro stSize k hp
    rw [hp] at h
    cases h

theorem Server.step_unsettled (hm : cfg.howto = modern) (h : Server.Sound cfg s)
    (hu : s.pc.settled = false) (hsf : ∀ stSize, s.pc ≠ .sendfile stSize) (a : Answer) :
    (s.step cfg a).pc.settled = false ∨ (s.step cfg a).pc.failed = true := by
  obtain ⟨pc, fd, net⟩ := s
  cases pc with
  | malloc =>
    cases a with
    | done k => exact .inl rfl
    | fail e => exact .inr rfl
  | read =>
    cases a with
    | fail e => exact .inr rfl
    | done k =>
      simp only [Server.step]
      split
      · exact .inl rfl
      · simp only [Server.goto_pc, gotRequest]
        split
        · exact .inl rfl
        · exact .inr rfl
  | open2 name =>
    simp only [Server.step]
    split
    · exact .inl rfl
    · exact .inr rfl
    · simp only [Server.goto_pc, gotFile, hm, if_true]
      exact .inl rfl
  | fstat =>
    cases a with
    | done k => exact .inl rfl
    | fail e => exact .inr rfl
  | sendfile stSize => exact (hsf stSize rfl).elim
  | readPage => exact (modern_ne_traditional (hm.symm.trans h.2)).elim
  | writePage => exact (modern_ne_traditional (hm.symm.trans h.2.2)).elim
  | closeFile | closeSock | returned | exited | sigpipe | overrun => cases hu

theorem Server.sendfile_sent_iff (h : Server.Sound cfg s) (hp : s.pc = .sendfile stSize)
    (hr : (run (Server.step cfg) (s.step cfg a) es).pc = .returned rv) :
    (run (Server.step cfg) (s.step cfg a) es).sent =
        (run (Server.step cfg) (s.step cfg a) es).fd.data ↔
      FullSendfile cfg s (a :: es) := by
  obtain ⟨pc, fd, net⟩ := s
  cases hp
  obtain ⟨hs, hoff, hsz, -⟩ := h
  cases a with
  | fail e =>
    rw [Server.run_failed (by cases e <;> rfl)] at hr
    cases e <;> cases hr
  | done k =>
    have hset : (Server.step cfg ⟨.sendfile stSize, fd, net⟩ (.done k)).pc.settled = true := by
      simp only [Server.step, Server.goto_pc, sentFile]
      split <;> rfl
    obtain ⟨he, hf⟩ := Server.run_settled cfg hset es
    have hsent : (Server.step cfg ⟨.sendfile stSize, fd, net⟩ (.done k)).sent =
        chunk k fd.data.length fd.data := by
      have hwr : net.s2c.wr = [] := hs
      have hoff' : fd.off = 0 := hoff
      simp only [Server.step, Server.goto_sent]
      simp only [Server.sent, Stream.send, OpenFile.next, hwr, hoff', hsz, List.nil_append,
        List.drop_zero]
    have hdata : (Server.step cfg ⟨.sendfile stSize, fd, net⟩ (.done k)).fd.data = fd.data := rfl
    rw [he, hf, hsent, hdata, chunk_eq_self]
    constructor
    · intro hle
      refine ⟨?_, .settled hset es⟩
      intro sz k' hp ha
      cases hp
      cases ha
      exact hsz ▸ hle
    · intro hfull
      exact hsz ▸ hfull.1 stSize k rfl rfl

/-- In the `MODERN` way, a run that returns has sent the whole file exactly when its one
`sendfile` was not cut short. -/
theorem Server.modern_sent_iff (hm : cfg.howto = modern) (h : Server.Sound cfg s)
    (hu : s.pc.settled = false) (hr : (run (Server.step cfg) s es).pc = .returned rv) :
    (run (Server.step cfg) s es).sent = (run (Server.step cfg) s es).fd.data ↔
      FullSendfile cfg s es := by
  induction es generalizing s with
  | nil =>
    have hp : s.pc = .returned rv := hr
    rw [hp] at hu
    cases hu
  | cons a es ih =>
    by_cases hsf : ∃ stSize, s.pc = .sendfile stSize
    · obtain ⟨stSize, hp⟩ := hsf
      exact Server.sendfile_sent_iff h hp hr
    · have hne : ∀ stSize, s.pc ≠ .sendfile stSize := fun sz hp => hsf ⟨sz, hp⟩
      rcases Server.step_unsettled hm h hu hne a with hu' | hd
      · rw [run_cons, ih (h.step a) hu' hr]
        constructor
        · exact fun hf => ⟨fun sz k hp => (hne sz hp).elim, hf⟩
        · exact fun hf => hf.2
      · rw [run_cons, Server.run_failed hd] at hr
        rw [hr] at hd
        cases hd

def serving (file : Bytes) (howto : Int) (page : PageSize) : Config :=
  ⟨fun _ => some file, howto, page⟩

def served (file : Bytes) (howto : Int) (page : PageSize) (c2s : Stream) (es : List Answer) :
    Server :=
  run (Server.step (serving file howto page)) (Server.start c2s) es

theorem served_data (h : (served file howto page c2s es).pc = .returned rv) :
    (served file howto page c2s es).fd.data = file := by
  have hn : OpenedAt (fun _ => True) (fun _ => some file) (served file howto page c2s es).fd.data
      (served file howto page c2s es).pc := Server.run_names (serving file howto page) c2s es
  rw [h] at hn
  obtain ⟨name, -, hf⟩ := hn
  exact (Option.some.inj hf).symm

theorem served_traditional (h : (served file traditional page c2s es).pc = .returned rv) :
    (served file traditional page c2s es).sent = file := by
  have hs : SentAt traditional (served file traditional page c2s es).fd
      (served file traditional page c2s es).sent (served file traditional page c2s es).pc :=
    Server.run_sound (serving file traditional page) c2s es
  rw [h] at hs
  exact (hs.2 rfl).trans (served_data h)

/-- The two ways of serving a file put the same bytes on the socket, all of the file's, exactly
when the `MODERN` run's `sendfile` is not cut short. -/
theorem modern_agrees_iff_fullSendfile
    (hm : (served file modern page c2s es).pc = .returned 0)
    (ht : (served file traditional page' c2s' es').pc = .returned 0) :
    ((served file modern page c2s es).sent = (served file traditional page' c2s' es').sent ∧
        (served file modern page c2s es).sent = file ∧
        (served file traditional page' c2s' es').sent = file) ↔
      FullSendfile (serving file modern page) (Server.start c2s) es := by
  have hiff := Server.modern_sent_iff (s := Server.start c2s) rfl
    (Server.start_sound (serving file modern page) c2s) rfl hm
  have hdata : (run (Server.step (serving file modern page)) (Server.start c2s) es).fd.data =
      file := served_data hm
  rw [hdata] at hiff
  have htrad := served_traditional ht
  rw [htrad, ← hiff]
  constructor
  · exact fun h => h.2.1
  · exact fun h => ⟨h, h, rfl⟩

def oneByteRequest : Stream := ⟨[97], 0, false⟩

theorem modern_agrees_two_bytes :
    ((served [1, 2] modern page4k oneByteRequest
          [.done 0, .done 0, .done 0, .done 0, .done 1, .done 0, .done 0]).sent =
        (served [1, 2] traditional page4k oneByteRequest
          [.done 0, .done 0, .done 0, .done 0, .fail .eintr, .done 0, .done 0, .done 0, .done 0,
            .done 0, .done 0, .done 0]).sent ∧
        (served [1, 2] modern page4k oneByteRequest
          [.done 0, .done 0, .done 0, .done 0, .done 1, .done 0, .done 0]).sent = [1, 2] ∧
        (served [1, 2] traditional page4k oneByteRequest
          [.done 0, .done 0, .done 0, .done 0, .fail .eintr, .done 0, .done 0, .done 0, .done 0,
            .done 0, .done 0, .done 0]).sent = [1, 2]) ↔
      FullSendfile (serving [1, 2] modern page4k) (Server.start oneByteRequest)
        [.done 0, .done 0, .done 0, .done 0, .done 1, .done 0, .done 0] :=
  modern_agrees_iff_fullSendfile (by decide +kernel) (by decide +kernel)

/-- A `sendfile` that moves one of two bytes goes unnoticed. -/
theorem modern_sendfile_cut_short :
    ¬ ∀ (file : Bytes) (page : PageSize) (c2s : Stream) (es es' : List Answer),
      (served file modern page c2s es).pc = .returned 0 →
      (served file traditional page c2s es').pc = .returned 0 →
      (served file modern page c2s es).sent = (served file traditional page c2s es').sent ∧
        (served file traditional page c2s es').sent = file := by
  intro h
  have hc := h [1, 2] page4k oneByteRequest
    [.done 0, .done 0, .done 0, .done 0, .done 0, .done 0, .done 0]
    [.done 0, .done 0, .done 0, .done 1, .done 1, .done 0, .done 0, .done 0]
    (by decide +kernel) (by decide +kernel)
  revert hc
  decide +kernel

end SysPrg.Xfer
