import SysPrg.XferComplete

namespace SysPrg.Xfer
set_option autoImplicit true

/-- What can happen to the server in its loop: a connection is accepted, the client does something
to its side of it, or a call of `process_client` is answered. -/
inductive LoopEv where
  | accept (c2s : Stream)
  | client (c2s : Stream)
  | call (a : Answer)
  deriving DecidableEq, Repr

/-- The server's loop, at `accept` or in `process_client`. A new client waits until the current one
has been served. -/
def loopStep (cfg : Config) : Option Server → LoopEv → Option Server
  | none, .accept c2s => some (Server.start c2s)
  | none, _ => none
  | some s, .accept _ => some s
  | some s, .client c2s => some { s with net.c2s := c2s }
  | some s, .call a =>
    match (s.step cfg a).pc with
    | .returned _ => none
    | _ => some (s.step cfg a)

def ended : Option Server → Bool
  | none => false
  | some s => s.pc.dead

/-- The answers that end the server process: every failure but an interrupted call that is made
again. -/
def fatal (cfg : Config) (s : Server) (a : Answer) : Bool :=
  match s.pc, a with
  | .malloc, .fail _ => true
  | .read, .fail _ => true
  | .open2 _, .fail e => e != .eintr
  | .open2 name, .done _ => (cfg.files name).isNone
  | .fstat, .fail _ => true
  | .sendfile _, .fail _ => true
  | .sendfile stSize, .done k => decide (toInt (s.fd.next k stSize).length < 0)
  | .readPage _, .fail e => e != .eintr
  | .writePage _ _ _ _, .fail e => e != .eintr
  | _, _ => false

def fills (s : Server) (a : Answer) : Bool :=
  match s.pc, a with
  | .read, .done k =>
    match s.net.c2s.recv k pathMax with
    | none => false
    | some (bs, _) => decide (pathMax ≤ bs.length)
  | _, _ => false

def fillsAt : Option Server → LoopEv → Bool
  | some s, .call a => fills s a
  | _, _ => false

def fatalAt (cfg : Config) : Option Server → LoopEv → Bool
  | some s, .call a => fatal cfg s a
  | _, _ => false

def sawFatal (cfg : Config) (st : Option Server) (es : List LoopEv) : Bool :=
  saw (fatalAt cfg) (loopStep cfg) st es

/-- A call ends the process exactly when its answer is fatal, and the only other way not to go on
is a request that fills the buffer. -/
theorem Server.step_fails (h : Server.Sound cfg s) (hs : s.pc.failed = false) (a : Answer) :
    (s.step cfg a).pc.dead = fatal cfg s a ∧
      (s.step cfg a).pc.failed = (fatal cfg s a || fills s a) := by
  obtain ⟨pc, fd, net⟩ := s
  cases pc with
  | malloc => cases a <;> exact ⟨rfl, rfl⟩
  | read =>
    cases a with
    | fail e => exact ⟨rfl, rfl⟩
    | done k =>
      simp only [Server.step, fatal, fills]
      cases hr : net.c2s.recv k pathMax with
      | none => exact ⟨rfl, rfl⟩
      | some r =>
        simp only [Server.goto_pc, gotRequest]
        by_cases hl : r.1.length < pathMax
        · rw [if_pos hl, decide_eq_false (Nat.not_le_of_lt hl)]
          exact ⟨rfl, rfl⟩
        · rw [if_neg hl, decide_eq_true (Nat.le_of_not_lt hl)]
          exact ⟨rfl, rfl⟩
  | open2 name =>
    cases a with
    | fail e => cases e <;> exact ⟨rfl, rfl⟩
    | done k =>
      simp only [Server.step, fatal, Config.open]
      cases hf : cfg.files name with
      | none => exact ⟨rfl, rfl⟩
      | some data =>
        simp only [rOpen2, restart, Server.goto_pc, gotFile]
        repeat' split
        all_goals exact ⟨rfl, rfl⟩
  | fstat => cases a <;> exact ⟨rfl, rfl⟩
  | sendfile stSize =>
    cases a with
    | fail e => cases e <;> exact ⟨rfl, rfl⟩
    | done k =>
      simp only [Server.step, fatal, fills, Server.goto_pc, sentFile, Bool.or_false]
      split
      · next hn => exact ⟨(decide_eq_true hn).symm, (decide_eq_true hn).symm⟩
      · next hn => exact ⟨(decide_eq_false hn).symm, (decide_eq_false hn).symm⟩
  | readPage tsent =>
    cases a with
    | fail e => cases e <;> exact ⟨rfl, rfl⟩
    | done k =>
      simp only [Server.step, OpenFile.read, rRead, restart, Server.goto_pc, fatal]
      rcases gotPage_spec tsent (cfg.page.next_length fd k) with ⟨-, hp⟩ | ⟨w, hp, -, -⟩
      · rw [hp]
        exact ⟨rfl, rfl⟩
      · rw [hp]
        exact ⟨rfl, rfl⟩
  | writePage rbuf w nr tsent =>
    cases a with
    | fail e =>
      simp only [Server.step, Server.goto_pc, fatal, fills, Bool.or_false]
      rcases wroteSome_error_spec h.1 nr tsent e with ⟨hi, hp⟩ | ⟨hi, hp⟩
      · rw [hp, hi]
        exact ⟨rfl, rfl⟩
      · rw [hp, Pc.failed_of_dead hp, bne_iff_ne.2 hi]
        exact ⟨rfl, rfl⟩
    | done k =>
      simp only [Server.step, Server.goto_pc, fatal]
      rcases wroteSome_spec h.1 nr tsent k with ⟨hp, -⟩ | ⟨w', hp, -, -⟩
      · rw [hp]
        exact ⟨rfl, rfl⟩
      · rw [hp]
        exact ⟨rfl, rfl⟩
  | closeFile | closeSock =>
    cases a with
    | done k => exact ⟨rfl, rfl⟩
    | fail e => cases e <;> exact ⟨rfl, rfl⟩
  | returned => cases a <;> exact ⟨rfl, rfl⟩
  | exited | sigpipe | overrun => cases hs

def LoopSound (cfg : Config) : Option Server → Prop
  | none => True
  | some s => s.Sound cfg

theorem LoopSound.step (h : LoopSound cfg st) (e : LoopEv) : LoopSound cfg (loopStep cfg st e) := by
  cases st with
  | none =>
    cases e with
    | accept c2s => exact Server.start_sound cfg c2s
    | client | call => trivial
  | some s =>
    cases e with
    | accept | client => exact h
    | call a =>
      have hs := Server.Sound.step h a
      simp only [loopStep]
      split
      · trivial
      · exact hs

def running : Option Server → Bool
  | none => true
  | some s => !s.pc.failed

theorem loopStep_ended (h : LoopSound cfg st) (hn : running st = true) (e : LoopEv) :
    ended (loopStep cfg st e) = fatalAt cfg st e ∧
      running (loopStep cfg st e) = !(fatalAt cfg st e || fillsAt st e) := by
  cases st with
  | none => cases e <;> exact ⟨rfl, rfl⟩
  | some s =>
    have hlive : s.pc.failed = false := Bool.not_eq_true' _ ▸ hn
    cases e with
    | accept | client =>
      refine ⟨?_, hn⟩
      cases hp : s.pc with
      | exited | sigpipe | overrun =>
        rw [hp] at hlive
        cases hlive
      | _ => simp only [loopStep, ended, hp]; rfl
    | call a =>
      obtain ⟨hdead, hfailed⟩ := Server.step_fails h hlive a
      simp only [loopStep, fatalAt, fillsAt, ← hdead] at hfailed ⊢
      rw [← hfailed]
      split
      · next hp =>
        rw [hp]
        exact ⟨rfl, rfl⟩
      · exact ⟨rfl, rfl⟩

theorem ended_step (h : ended st = true) (e : LoopEv) : ended (loopStep cfg st e) = true := by
  cases st with
  | none => cases h
  | some s =>
    cases e with
    | accept | client => exact h
    | call a =>
      have hp : s.pc.dead = true := h
      simp only [loopStep, Server.step_failed cfg (Pc.failed_of_dead hp) a]
      split
      · next hr =>
        rw [hr] at hp
        cases hp
      · exact h

theorem ended_run_iff (h : LoopSound cfg st) (hn : running st = true)
    (hno : saw fillsAt (loopStep cfg) st es = false) (h0 : ended st = false) :
    ended (run (loopStep cfg) st es) = sawFatal cfg st es := by
  induction es generalizing st with
  | nil => exact h0
  | cons e es ih =>
    obtain ⟨he, hr⟩ := loopStep_ended h hn e
    simp only [saw, Bool.or_eq_false_iff] at hno
    simp only [run_cons, sawFatal, saw]
    cases hf : fatalAt cfg st e with
    | true =>
      rw [hf] at he
      exact run_invariant (fun st => ended st = true) (fun _ e h => ended_step h e) he es
    | false =>
      rw [hf] at he
      rw [hf, hno.1] at hr
      exact ih (h.step e) hr hno.2 he

/-- An upper bound on the calls that `process_client` still makes after reading the request, those
that are made again not counted. -/
def todoAt (cfg : Config) (fd : OpenFile) : Pc → Nat
  | .open2 name => 2 * ((cfg.files name).getD []).length + 6
  | .fstat => 4
  | .sendfile _ => 3
  | .readPage _ => 2 * (fd.data.length - fd.off) + 3
  | .writePage _ w _ _ => 2 * (fd.data.length - fd.off) + w.bytestowrite + 3
  | .closeFile => 2
  | .closeSock => 1
  | _ => 0

def Server.todo (cfg : Config) (s : Server) : Nat := todoAt cfg s.fd s.pc

theorem Server.goto_todo (cfg : Config) (s : Server) (pc : Pc) :
    (s.goto pc).todo cfg = todoAt cfg s.fd pc := rfl

/-- `process_client` is between reading the request and its end. -/
def Pc.serving : Pc → Bool
  | .malloc | .read | .returned _ | .exited _ _ | .sigpipe | .overrun => false
  | _ => true

theorem gotFile_todo (cfg : Config) (data : Bytes) :
    todoAt cfg ⟨data, 0⟩ (gotFile cfg.howto (.ok ())) < 2 * data.length + 6 := by
  simp only [gotFile]
  repeat' split
  all_goals simp only [todoAt]
  all_goals omega

theorem sentFile_todo {n : Nat} (hn : ¬ toInt n < 0) : todoAt cfg fd (sentFile (.ok n)) < 3 := by
  have hp : sentFile (.ok n) = .closeFile := by
    simp only [sentFile, if_neg hn]
  rw [hp]
  exact Nat.lt_succ_self 2

theorem gotPage_todo (cfg : Config) (fd : OpenFile) (tsent : Int) (k : Nat) :
    todoAt cfg (fd.advance (fd.next k cfg.page.size).length)
        (gotPage tsent (.ok (fd.next k cfg.page.size))) <
      2 * (fd.data.length - fd.off) + 3 := by
  have hle : (fd.next k cfg.page.size).length ≤ fd.data.length - fd.off := by
    simp only [OpenFile.next, chunk_length, List.length_drop]
    omega
  rcases gotPage_spec tsent (cfg.page.next_length fd k) with ⟨-, hp⟩ | ⟨w, hp, hin, hleft⟩
  · rw [hp]
    simp only [todoAt]
    omega
  · have hpos := hin.length_pos
    have hb := hin.left_length
    rw [hleft] at hb
    rw [hp]
    simp only [todoAt, OpenFile.advance]
    omega

theorem wroteSome_todo (cfg : Config) (fd : OpenFile) (hw : RWrite.Inside w rbuf) (k : Nat) :
    todoAt cfg fd
        (wroteSome rbuf w nr tsent (.ok (chunk k w.bytestowrite (w.left rbuf)).length)) <
      2 * (fd.data.length - fd.off) + w.bytestowrite + 3 := by
  have hpos := hw.pending
  rcases wroteSome_spec hw nr tsent k with ⟨hp, -⟩ | ⟨w', hp, hin, hsplit⟩
  · simp only [hp, todoAt]
    omega
  · have hl := congrArg List.length hsplit
    have hne := List.length_pos_iff.2 (mt (chunk_eq_nil (k := k) hpos).1 hw.left_ne_nil)
    rw [List.length_append, hin.left_length, hw.left_length] at hl
    simp only [hp, todoAt]
    omega

theorem Server.step_todo_lt (h : Server.Sound cfg s) (hp : s.pc.serving = true)
    (hf : fatal cfg s (.done k) = false) : (s.step cfg (.done k)).todo cfg < s.todo cfg := by
  obtain ⟨pc, fd, net⟩ := s
  cases pc with
  | open2 name =>
    simp only [fatal] at hf
    simp only [Server.step, Config.open, Server.todo, todoAt]
    cases hd : cfg.files name with
    | none => rw [hd] at hf; cases hf
    | some data => exact gotFile_todo cfg data
  | fstat => exact Nat.lt_succ_self 3
  | sendfile stSize =>
    simp only [fatal, decide_eq_false_iff_not] at hf
    exact sentFile_todo hf
  | readPage tsent => exact gotPage_todo cfg fd tsent k
  | writePage rbuf w nr tsent => exact wroteSome_todo cfg fd h.1 k
  | closeFile => exact Nat.lt_succ_self 1
  | closeSock => exact Nat.lt_succ_self 0
  | malloc | read | returned | exited | sigpipe | overrun => cases hp

theorem Server.step_todo_le (h : Server.Sound cfg s) (hp : s.pc.serving = true)
    (hf : fatal cfg s (.fail e) = false) : (s.step cfg (.fail e)).todo cfg ≤ s.todo cfg := by
  obtain ⟨pc, fd, net⟩ := s
  cases pc with
  | open2 | readPage =>
    cases e with
    | eintr => exact Nat.le_refl _
    | _ => cases hf
  | writePage rbuf w nr tsent =>
    rcases wroteSome_error_spec h.1 nr tsent e with ⟨-, hw⟩ | ⟨hi, -⟩
    · simp only [Server.step, Server.goto_todo, hw]
      exact Nat.le_refl _
    · simp only [fatal, bne_eq_false_iff_eq] at hf
      exact (hi hf).elim
  | fstat | sendfile => cases hf
  | closeFile =>
    cases e with
    | eintr => exact Nat.le_refl _
    | _ => exact Nat.le_succ 1
  | closeSock =>
    cases e with
    | eintr => exact Nat.le_refl _
    | _ => exact Nat.zero_le _
  | malloc | read | returned | exited | sigpipe | overrun => cases hp

def LoopEv.completes : LoopEv → Bool
  | .call (.done _) => true
  | _ => false

theorem Server.step_serving {s : Server} (hp : s.pc.serving = true)
    (hf : (s.step cfg a).pc.failed = false) (hr : ∀ rv, (s.step cfg a).pc ≠ .returned rv) :
    (s.step cfg a).pc.serving = true := by
  have hasked : (s.step cfg a).pc.asked = true := by
    apply Server.step_asked
    cases hpc : s.pc with
    | malloc | read => rw [hpc] at hp; cases hp
    | _ => rfl
  generalize (s.step cfg a).pc = pc at hf hr hasked
  cases pc with
  | malloc | read => cases hasked
  | returned rv => exact (hr rv rfl).elim
  | exited | sigpipe | overrun => cases hf
  | open2 | fstat | sendfile | readPage | writePage | closeFile | closeSock => rfl

def Serving (cfg : Config) (st : Option Server) : Prop :=
  ∃ s, st = some s ∧ s.Sound cfg ∧ s.pc.serving = true

def loopTodo (cfg : Config) : Option Server → Nat
  | none => 0
  | some s => s.todo cfg

theorem fills_of_serving {s : Server} (hp : s.pc.serving = true) : fills s a = false := by
  unfold fills
  cases hpc : s.pc with
  | read =>
    rw [hpc] at hp
    cases hp
  | _ => rfl

theorem Serving.step_call (h : Server.Sound cfg s) (hp : s.pc.serving = true)
    (hf : fatal cfg s a = false) :
    loopStep cfg (some s) (.call a) = none ∨
      loopStep cfg (some s) (.call a) = some (s.step cfg a) ∧ (s.step cfg a).pc.serving = true := by
  have hlive : s.pc.failed = false := by
    cases hpc : s.pc with
    | exited | sigpipe | overrun => rw [hpc] at hp; cases hp
    | _ => rfl
  have hfailed : (s.step cfg a).pc.failed = false := by
    rw [(Server.step_fails h hlive a).2, hf, fills_of_serving hp]
    rfl
  by_cases hr : ∃ rv, (s.step cfg a).pc = .returned rv
  · obtain ⟨rv, hr⟩ := hr
    left
    simp only [loopStep, hr]
  · have hr' : ∀ rv, (s.step cfg a).pc ≠ .returned rv := fun rv he => hr ⟨rv, he⟩
    right
    refine ⟨?_, Server.step_serving hp hfailed hr'⟩
    simp only [loopStep]

theorem Serving.step (st : Option Server) (e : LoopEv) (hf : fatalAt cfg st e = false)
    (h : Serving cfg st) :
    loopStep cfg st e = none ∨ Serving cfg (loopStep cfg st e) ∧
      loopTodo cfg (loopStep cfg st e) + e.completes.toNat ≤ loopTodo cfg st := by
  obtain ⟨s, rfl, hs, hp⟩ := h
  cases e with
  | accept c2s => exact .inr ⟨⟨s, rfl, hs, hp⟩, Nat.le_refl _⟩
  | client c2s => exact .inr ⟨⟨{ s with net.c2s := c2s }, rfl, hs, hp⟩, Nat.le_refl _⟩
  | call a =>
    rcases Serving.step_call hs hp hf with hnone | ⟨hsome, hp'⟩
    · exact .inl hnone
    · right
      rw [hsome]
      refine ⟨⟨_, rfl, hs.step a, hp'⟩, ?_⟩
      cases a with
      | done k => exact Server.step_todo_lt hs hp hf
      | fail e => exact Server.step_todo_le hs hp hf

theorem LoopSound.run (h : LoopSound cfg st) (es : List LoopEv) :
    LoopSound cfg (run (loopStep cfg) st es) :=
  run_invariant (LoopSound cfg) (fun _ e h => h.step e) h es

/-- Over any sequence of clients, as long as no request fills the buffer, the server process ends
exactly when some call made for a client is answered with a failure that is not an interruption
of a restarted call. In any run without such an answer a client whose request has been
read is served in a bounded number of calls, and the server is back at `accept`. -/
theorem server_back_at_accept (cfg : Config) (es : List LoopEv) :
    (saw fillsAt (loopStep cfg) none es = false →
      ended (run (loopStep cfg) none es) = sawFatal cfg none es) ∧
    ∀ (s : Server) (es' : List LoopEv), run (loopStep cfg) none es = some s →
      s.pc.serving = true → sawFatal cfg none (es ++ es') = false →
      s.todo cfg < es'.countP LoopEv.completes →
      ∃ pre, pre <+: es' ∧ run (loopStep cfg) none (es ++ pre) = none := by
  have hstart : LoopSound cfg none := trivial
  constructor
  · intro hno
    exact ended_run_iff hstart rfl hno rfl
  · intro s es' hs hp hn hc
    have hsound := hstart.run es
    rw [sawFatal, saw_append, Bool.or_eq_false_iff] at hn
    obtain ⟨-, hn⟩ := hn
    rw [hs] at hsound hn
    obtain ⟨pre, hpre, hrun⟩ := run_reaches (Serving cfg) (fun st => st = none)
      LoopEv.completes (loopTodo cfg) Serving.step ⟨s, rfl, hsound, hp⟩ hn hc
    refine ⟨pre, hpre, ?_⟩
    rw [run_append, hs, hrun]

def askedOnce : List LoopEv :=
  [.accept ⟨[97], 0, false⟩, .call (.done 0), .call (.done 0)]

theorem server_back_after_one_client :
    ended (run (loopStep (oneFile traditional page1 [1])) none askedOnce) = false ∧
    ∃ pre, pre <+: List.replicate 9 (.call (.done 0)) ∧
      run (loopStep (oneFile traditional page1 [1])) none (askedOnce ++ pre) = none := by
  obtain ⟨hended, hback⟩ := server_back_at_accept (oneFile traditional page1 [1]) askedOnce
  exact ⟨(hended (by decide +kernel)).trans (by decide +kernel),
    hback ⟨.open2 [97], ⟨[], 0⟩, ⟨⟨[97], 1, false⟩, Stream.fresh⟩⟩ _ (by decide +kernel) rfl
      (by decide +kernel) (by decide +kernel)⟩

/-- A client that asks for a name that does not exist ends the server. -/
theorem server_ended_by_request :
    ¬ ∀ (cfg : Config) (es : List LoopEv), (∀ e, .call (.fail e) ∉ es) →
      ended (run (loopStep cfg) none es) = false := by
  intro h
  have hc := h (oneFile traditional page1 [1])
    [.accept ⟨[98], 0, false⟩, .call (.done 0), .call (.done 0), .call (.done 0)] (by simp)
  revert hc
  decide +kernel

end SysPrg.Xfer
